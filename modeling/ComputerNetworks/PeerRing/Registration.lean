import ComputerNetworks.PeerRing.Placement

/-! # Registrations

A peer prints its address, the number of its files and their names into one line of fields, each
ended by a space, and `__init.cpp` reads the line back. `registration_roundtrip` is the round trip,
up to the node both sides compute from it. The second half is about all registrations together: the
bootstrap sorts its nodes, so with distinct identifiers nothing it computes depends on the order in
which they arrived (`arrival_order_irrelevant`).
-/
namespace ComputerNetworks.PeerRing
set_option autoImplicit false

/-! ## The text of a registration -/

/-- What the user of a peer enters: words without whitespace, and at most as many file names as an
`int` counts. -/
structure Entered where
  ip : Str
  port : Str
  files : List Str
  ip_no_space : ∀ b ∈ ip, isspace b = false
  port_no_space : ∀ b ∈ port, isspace b = false
  file_word : ∀ f ∈ files, f ≠ [] ∧ ∀ b ∈ f, isspace b = false
  nf_lt : files.length < 2 ^ 31

namespace Entered

def nf (e : Entered) : ℤ := e.files.length

def ip_port (e : Entered) : Str := e.ip ++ colon :: e.port

/-- The `my_node` of `server.cpp` when the message is sent. -/
def myNode (e : Entered) : Option Node :=
  (Node.setIpPort {} e.ip_port).map fun my_node => { my_node with myFile := e.files }

/-- `msg1` of `server.cpp`. -/
def registrationText (e : Entered) : Str :=
  e.files.foldl (fun msg1 str => msg1 ++ str ++ [space])
    (e.ip ++ [space] ++ e.port ++ [space] ++ sprintfD e.nf ++ [space])

end Entered

/-- The locals of one turn of the registration loop of `__init.cpp`: `ip`, `port`, `nf` and the
file names. -/
def registrationFields (msg : Str) : Option (Str × Str × ℤ × List Str) := do
  let (ip, iss) := getline (istringstream msg) [] space
  let (port, iss) := getline iss [] space
  let (nf_s, iss) := getline iss [] space
  let nf ← sscanfD nf_s
  some (ip, port, nf, readFiles nf.toNat iss)

theorem readRegistration_eq {msg ip port : Str} {nf : ℤ} {files : List Str}
    (h : registrationFields msg = some (ip, port, nf, files)) :
    readRegistration msg =
      (Node.setIpPort {} (ip ++ colon :: port)).map fun nd => { nd with myFile := files } := by
  set r1 := getline (istringstream msg) [] space with hr1
  set r2 := getline r1.2 [] space with hr2
  set r3 := getline r2.2 [] space with hr3
  have hfields : registrationFields msg = (sscanfD r3.1).bind fun nf =>
      some (r1.1, r2.1, nf, readFiles nf.toNat r3.2) := rfl
  have hread : readRegistration msg = (Node.setIpPort {} (r1.1 ++ colon :: r2.1)).bind fun nd =>
      (sscanfD r3.1).bind fun nf => some { nd with myFile := readFiles nf.toNat r3.2 } := rfl
  rw [hfields, Option.bind_eq_some_iff] at h
  obtain ⟨nf', hnf, hsome⟩ := h
  simp only [Option.some.injEq, Prod.mk.injEq] at hsome
  obtain ⟨rfl, rfl, rfl, rfl⟩ := hsome
  rw [hread, hnf]
  cases Node.setIpPort {} (r1.1 ++ colon :: r2.1) <;> rfl

theorem space_notMem_of_isspace {s : Str} (h : ∀ b ∈ s, isspace b = false) : space ∉ s := by
  intro hmem
  have := h _ hmem
  simp [isspace, space] at this

theorem space_notMem_sprintfD (n : ℕ) : space ∉ sprintfD n := by
  have hprint : sprintfD n = decimalDigits n := by simp [sprintfD]
  rw [hprint]
  exact space_notMem_of_isspace fun b hb => isspace_of_isdigit (isdigit_of_mem_decimalDigits hb)

theorem foldl_fields (files : List Str) (msg1 : Str) :
    files.foldl (fun msg1 str => msg1 ++ str ++ [space]) msg1 =
      msg1 ++ files.flatMap fun f => f ++ [space] := by
  induction files generalizing msg1 with
  | nil => simp
  | cons f files ih =>
    rw [List.foldl_cons, ih, List.flatMap_cons]
    simp

theorem Entered.registrationText_eq (e : Entered) :
    e.registrationText = e.ip ++ space :: (e.port ++ space :: (sprintfD e.nf ++ space ::
      e.files.flatMap fun f => f ++ [space])) := by
  rw [Entered.registrationText, foldl_fields]
  simp

theorem readFiles_flatMap {files : List Str} (h : ∀ f ∈ files, space ∉ f) (rest : Str) :
    readFiles files.length ⟨(files.flatMap fun f => f ++ [space]) ++ rest, false, false⟩ = files := by
  induction files with
  | nil => rfl
  | cons f files ih =>
    have hsplit : ((f :: files).flatMap fun f => f ++ [space]) ++ rest =
        f ++ space :: ((files.flatMap fun f => f ++ [space]) ++ rest) := by simp
    rw [List.length_cons, readFiles, hsplit, getline_append (h f List.mem_cons_self)]
    simp only
    rw [ih fun g hg => h g (List.mem_cons_of_mem _ hg)]

theorem Entered.registrationFields_registrationText (e : Entered) :
    registrationFields e.registrationText = some (e.ip, e.port, e.nf, e.files) := by
  have hfiles : ∀ f ∈ e.files, space ∉ f := fun f hf =>
    space_notMem_of_isspace (e.file_word f hf).2
  have hsp : space ∉ sprintfD e.nf := space_notMem_sprintfD e.files.length
  have hnf : sscanfD (sprintfD e.nf) = some e.nf := sscanfD_sprintfD e.nf_lt
  have hread := readFiles_flatMap hfiles []
  rw [List.append_nil] at hread
  unfold registrationFields
  rw [e.registrationText_eq, istringstream,
    getline_append (space_notMem_of_isspace e.ip_no_space)]
  simp only
  rw [getline_append (space_notMem_of_isspace e.port_no_space)]
  simp only
  rw [getline_append hsp]
  simp only [hnf, Option.bind_eq_bind, Option.bind_some]
  rw [Entered.nf, Int.toNat_natCast, hread]

/-- The bootstrap reads back what the user entered and computes the peer's own node from it. -/
theorem registration_roundtrip (e : Entered) (hcolon : colon ∉ e.ip) :
    registrationFields e.registrationText = some (e.ip, e.port, e.nf, e.files) ∧
      readRegistration e.registrationText = e.myNode ∧
        ∀ nd, e.myNode = some nd → nd.ip_port = e.ip ++ colon :: e.port ∧ nd.ip = e.ip := by
  refine ⟨e.registrationFields_registrationText,
    readRegistration_eq e.registrationFields_registrationText, fun nd hnd => ?_⟩
  unfold Entered.myNode Node.setIpPort Entered.ip_port at hnd
  rw [istringstream, getline_append hcolon] at hnd
  simp only [Option.bind_eq_bind, Option.map_bind, Option.bind_eq_some_iff, Function.comp_apply,
    Option.map_some, Option.some.injEq] at hnd
  obtain ⟨buf, -, rfl⟩ := hnd
  exact ⟨rfl, rfl⟩

def pairEntered : Entered where
  ip := bytes "10.0.0.1"
  port := bytes "8001"
  files := [bytes "a", bytes "b", bytes "a"]
  ip_no_space := by decide +kernel
  port_no_space := by decide +kernel
  file_word := by decide +kernel
  nf_lt := by decide

theorem registration_roundtrip_pair :
    registrationFields pairEntered.registrationText =
        some (bytes "10.0.0.1", bytes "8001", 3, [bytes "a", bytes "b", bytes "a"]) ∧
      readRegistration pairEntered.registrationText = pairEntered.myNode :=
  have h := registration_roundtrip pairEntered (by decide)
  ⟨h.1, h.2.1⟩

/-! ## The order of the registrations -/

theorem registrations_eq_some {payloads : List Str} {nodes : List Node} :
    registrations payloads = some nodes ↔
      payloads.map (fun payload => readRegistration (recvinfo payload)) = nodes.map some := by
  unfold registrations
  induction payloads generalizing nodes with
  | nil => cases nodes <;> simp
  | cons payload payloads ih =>
    simp only [List.mapM_cons, Option.pure_def, Option.bind_eq_bind, Option.bind_eq_some_iff,
      Option.some.injEq, List.map_cons]
    cases nodes with
    | nil => simp
    | cons nd nodes =>
      rw [List.map_cons, List.cons.injEq, ← ih]
      constructor
      · rintro ⟨nd', hnd, nodes', hnodes, hcons⟩
        obtain ⟨rfl, rfl⟩ := List.cons.inj hcons
        exact ⟨hnd, hnodes⟩
      · rintro ⟨hnd, hnodes⟩
        exact ⟨nd, hnd, nodes, hnodes, rfl⟩

theorem exists_eq_map_some {α : Type} {l : List (Option α)} (h : ∀ r ∈ l, r.isSome) :
    ∃ l' : List α, l = l'.map some := by
  induction l with
  | nil => exact ⟨[], rfl⟩
  | cons r l ih =>
    obtain ⟨a, rfl⟩ := Option.isSome_iff_exists.mp (h r List.mem_cons_self)
    obtain ⟨l', rfl⟩ := ih fun q hq => h q (List.mem_cons_of_mem _ hq)
    exact ⟨a :: l', rfl⟩

theorem registrations_perm {p₁ p₂ : List Str} {nodes₁ : List Node} (hp : p₁.Perm p₂)
    (h : registrations p₁ = some nodes₁) :
    ∃ nodes₂, registrations p₂ = some nodes₂ ∧ nodes₁.Perm nodes₂ := by
  rw [registrations_eq_some] at h
  have hmap := hp.map fun payload => readRegistration (recvinfo payload)
  rw [h] at hmap
  have hsome : ∀ r ∈ p₂.map (fun payload => readRegistration (recvinfo payload)), r.isSome := by
    intro r hr
    obtain ⟨nd, -, rfl⟩ := List.mem_map.mp (hmap.mem_iff.mpr hr)
    rfl
  obtain ⟨nodes₂, hnodes⟩ := exists_eq_map_some hsome
  rw [hnodes] at hmap
  exact ⟨nodes₂, registrations_eq_some.mpr hnodes,
    (List.map_perm_map_iff (Option.some_injective Node)).mp hmap⟩

theorem exists_stdSort (nodes : List Node) : ∃ all_info, StdSort nodes all_info := by
  refine ⟨nodes.mergeSort fun a b => decide (a.node_id ≤ b.node_id), List.mergeSort_perm _ _, ?_⟩
  have hsorted : (nodes.mergeSort fun a b => decide (a.node_id ≤ b.node_id)).Pairwise
      fun a b => decide (a.node_id ≤ b.node_id) := by
    apply List.pairwise_mergeSort
    · intro a b c hab hbc
      exact decide_eq_true (le_trans (of_decide_eq_true hab) (of_decide_eq_true hbc))
    · intro a b
      simpa using le_total a.node_id b.node_id
  exact hsorted.imp fun hab => not_lt.mpr (of_decide_eq_true hab)

theorem StdSort.unique {nodes₁ nodes₂ all_info₁ all_info₂ : List Node}
    (h₁ : StdSort nodes₁ all_info₁) (h₂ : StdSort nodes₂ all_info₂) (hp : nodes₁.Perm nodes₂)
    (hids : (nodes₁.map Node.node_id).Nodup) : all_info₁ = all_info₂ := by
  have hperm : all_info₁.Perm all_info₂ := (h₁.perm.trans hp).trans h₂.perm.symm
  refine List.Perm.eq_of_pairwise (fun a b ha hb hab hba => ?_) h₁.sorted h₂.sorted hperm
  have ha' : a ∈ nodes₁ := h₁.perm.mem_iff.mp ha
  have hb' : b ∈ nodes₁ := h₁.perm.mem_iff.mp (hperm.mem_iff.mpr hb)
  exact List.inj_on_of_nodup_map hids ha' hb' (le_antisymm (not_lt.mp hab) (not_lt.mp hba))

/-- Another order of arrival leads to a run, and every such run computes the same nodes: the same
`scr`, `pdr` and `myFileInfo` for each, and with them the same replies. -/
theorem arrival_order_irrelevant {p₁ p₂ : List Str} (B₁ : BootstrapRun p₁)
    (hids : (B₁.nodes.map Node.node_id).Nodup) (hp : p₁.Perm p₂) :
    Nonempty (BootstrapRun p₂) ∧
      ∃ placed, placeFiles (link B₁.all_info) = some placed ∧
        ∀ B₂ : BootstrapRun p₂, placeFiles (link B₂.all_info) = some placed := by
  obtain ⟨nodes₂, hreg, hnodes⟩ := registrations_perm hp B₁.registered
  constructor
  · obtain ⟨all_info, hsort⟩ := exists_stdSort nodes₂
    have hne : p₂ ≠ [] := fun h => B₁.nonempty (List.perm_nil.mp (h ▸ hp))
    exact ⟨⟨hne, nodes₂, hreg, all_info, hsort⟩⟩
  · refine ⟨B₁.peers, B₁.placeFiles_eq, fun B₂ => ?_⟩
    obtain rfl : nodes₂ = B₂.nodes := Option.some.inj (hreg.symm.trans B₂.registered)
    rw [← B₁.stdSort.unique B₂.stdSort hnodes hids]
    exact B₁.placeFiles_eq

theorem arrival_order_irrelevant_pair :
    Nonempty (BootstrapRun pairPayloads.reverse) ∧
      ∃ placed, placeFiles (link pairRun.all_info) = some placed ∧
        ∀ B₂ : BootstrapRun pairPayloads.reverse, placeFiles (link B₂.all_info) = some placed :=
  arrival_order_irrelevant pairRun (by decide +kernel) (List.reverse_perm _).symm

end ComputerNetworks.PeerRing
