import ComputerNetworks.PeerRing.Replies

/-! # Replies that are cut

The buffer of `__sendreq` takes a reply of 2047 bytes, and the `recvfrom` of a peer returns 1000 of
them. `parseStartup_take` says what a peer makes of the first bytes of a reply: `cutEntries` is the
table up to the cut, which may fall into a name, behind it, or into an address. From this follow the exact
condition under which the cut does no harm (`startsRight_iff`), and that otherwise a peer is wrong about
one name at most and does not know those behind it (`cut_reply_table`).
-/
namespace ComputerNetworks.PeerRing
set_option autoImplicit false

/-! ## The table up to the cut -/

/-- What the reading loop stores for an entry of which it has the first `n` bytes. Where the name is cut
or the text ends with it, `val` is still the address of the entry before. -/
def cutEntry (val : Str) (it : Str × Str) (n : ℕ) : List (Str × Str) :=
  if n = 0 then []
  else if n ≤ it.1.length then [(it.1.take n, val)]
  else [(it.1, it.2.take (n - (it.1.length + 1)))]

def cutEntries : Str → List (Str × Str) → ℕ → List (Str × Str)
  | _, [], _ => []
  | val, it :: l, n =>
      if n < it.1.length + it.2.length + 2 then cutEntry val it n
      else it :: cutEntries it.2 l (n - (it.1.length + it.2.length + 2))

theorem readEntries_take {l : List (Str × Str)} (h : ∀ it ∈ l, Separable it) {fuel : ℕ}
    (hfuel : l.length < fuel) (n : ℕ) (key val : Str) (m : StrMap) :
    readEntries fuel ⟨(entriesText l).take n, false, false⟩ key val m =
      m.assignAll (cutEntries val l n) := by
  induction l generalizing fuel n key val m with
  | nil =>
    obtain ⟨fuel, rfl⟩ : ∃ k, fuel = k + 1 := ⟨fuel - 1, by simp at hfuel; omega⟩
    rw [entriesText_nil, List.take_nil]
    rfl
  | cons it l ih =>
    obtain ⟨fuel, rfl⟩ : ∃ k, fuel = k + 2 := ⟨fuel - 2, by simp at hfuel; omega⟩
    obtain ⟨hkey, hval, -⟩ := h it List.mem_cons_self
    rw [cutEntries, entriesText_cons]
    split_ifs with hn
    · rw [cutEntry]
      split_ifs with hzero hname
      · rw [hzero]
        rfl
      · -- the text ends in the name or with it
        have hcut : space ∉ it.1.take n := fun hmem => hkey (List.mem_of_mem_take hmem)
        have hne : it.1.take n ≠ [] := by
          rw [← List.length_pos_iff, List.length_take]
          omega
        rw [List.take_append_of_le_length hname]
        simp only [readEntries, getline_last hcut hne, getline_eof, Bool.false_eq_true, if_false,
          if_true]
        rfl
      · -- the text ends in the address
        obtain ⟨c, rfl⟩ : ∃ c, n = it.1.length + (c + 1) := ⟨n - (it.1.length + 1), by omega⟩
        have hcut : space ∉ it.2.take c := fun hmem => hval (List.mem_of_mem_take hmem)
        have hoff : it.1.length + (c + 1) - (it.1.length + 1) = c := by omega
        rw [List.take_length_add_append, List.take_succ_cons, hoff,
          List.take_append_of_le_length (by omega)]
        simp only [readEntries, getline_append hkey, getline_notMem hcut, getline_eof,
          Bool.false_eq_true, if_false, if_true]
        rfl
    · obtain ⟨c, rfl⟩ : ∃ c, n = it.1.length + (it.2.length + (c + 1) + 1) :=
        ⟨n - (it.1.length + it.2.length + 2), by omega⟩
      have hoff : it.1.length + (it.2.length + (c + 1) + 1) - (it.1.length + it.2.length + 2) = c := by
        omega
      rw [hoff, List.take_length_add_append, List.take_succ_cons, List.take_length_add_append,
        List.take_succ_cons, readEntries_cons (h it List.mem_cons_self),
        ih (fun q hq => h q (List.mem_cons_of_mem _ hq)) (by simp at hfuel; omega),
        SortedMap.assignAll_cons]

/-- Where the addresses and the table begin in a reply. -/
def Node.headLength (nd : Node) : ℕ := nd.scr.length + nd.pdr.length + 2

theorem cutEntries_zero (val : Str) (l : List (Str × Str)) : cutEntries val l 0 = [] := by
  cases l with
  | nil => rfl
  | cons it l => rw [cutEntries, if_pos (by omega), cutEntry, if_pos rfl]

/-- A peer that reads the first `n` bytes of a reply. -/
theorem parseStartup_take {nd my_node : Node} (h : nd.Printable) (hmy : my_node.myFileInfo = ∅)
    (hpdr : my_node.pdr = []) (n : ℕ) :
    parseStartup my_node ((replyText nd).take n) =
      { my_node with
        scr := nd.scr.take n
        pdr := nd.pdr.take (n - (nd.scr.length + 1))
        myFileInfo := SortedMap.assignAll ∅
          (cutEntries [] nd.myFileInfo.toList (n - nd.headLength)) } := by
  rw [replyText_eq]
  rcases Nat.lt_or_ge nd.scr.length n with hscr | hscr
  · obtain ⟨n, rfl⟩ : ∃ k, n = nd.scr.length + (k + 1) := ⟨n - (nd.scr.length + 1), by omega⟩
    have hoff : nd.scr.length + (n + 1) - (nd.scr.length + 1) = n := by omega
    have hwhole : nd.scr.take (nd.scr.length + (n + 1)) = nd.scr := List.take_of_length_le (by omega)
    rw [List.take_length_add_append, List.take_succ_cons, hoff, hwhole]
    rcases Nat.lt_or_ge nd.pdr.length n with hcut | hcut
    · -- both addresses are read, and the loop reads the rest
      obtain ⟨n, rfl⟩ : ∃ k, n = nd.pdr.length + (k + 1) := ⟨n - (nd.pdr.length + 1), by omega⟩
      have hoff : nd.scr.length + (nd.pdr.length + (n + 1) + 1) - nd.headLength = n := by
        rw [Node.headLength]
        omega
      rw [List.take_length_add_append, List.take_succ_cons, hoff,
        List.take_of_length_le (l := nd.pdr) (by omega)]
      set rest := (entriesText nd.myFileInfo.toList).take n with hrest
      have hread := readEntries_take h.entries (Nat.lt_succ_of_le (Nat.le_add_right _ rest.length)) n
        [] [] ∅
      have hfuel : rest.length < (nd.scr ++ space :: (nd.pdr ++ space :: rest)).length + 1 := by
        simp only [List.length_append, List.length_cons]
        omega
      rw [← hrest, readEntries_stable [] [] ∅ (by show rest.length < _; omega) hfuel, ← hmy] at hread
      rw [parseStartup, istringstream]
      simp only [getline_append h.scr, getline_append h.pdr]
      rw [hread, hmy]
    · -- the text ends in the second address
      have hspace : space ∉ nd.pdr.take n := fun hmem => h.pdr (List.mem_of_mem_take hmem)
      have hzero : nd.scr.length + (n + 1) - nd.headLength = 0 := by
        rw [Node.headLength]
        omega
      rw [List.take_append_of_le_length hcut, hzero, cutEntries_zero, parseStartup, istringstream]
      simp only [getline_append h.scr, getline_notMem hspace, readEntries, getline_eof, if_true, hmy]
      rfl
  · -- the text ends in the first address
    have hspace : space ∉ nd.scr.take n := fun hmem => h.scr (List.mem_of_mem_take hmem)
    have hzero : n - nd.headLength = 0 := by
      rw [Node.headLength]
      omega
    have hpdr0 : n - (nd.scr.length + 1) = 0 := by omega
    rw [List.take_append_of_le_length hscr, hzero, hpdr0, cutEntries_zero, parseStartup,
      istringstream, List.take_zero]
    simp only [getline_notMem hspace, readEntries, getline_eof, if_true, hmy, hpdr]
    rfl

/-! ## Where the cut falls -/

/-- The value of `val` behind the entries `l`. -/
def lastAddress : Str → List (Str × Str) → Str
  | val, [] => val
  | _, it :: l => lastAddress it.2 l

theorem lastAddress_concat (val : Str) (l : List (Str × Str)) (it : Str × Str) :
    lastAddress val (l ++ [it]) = it.2 := by
  induction l generalizing val with
  | nil => rfl
  | cons q l ih => rw [List.cons_append, lastAddress, ih]

theorem cutEntries_of_le {l : List (Str × Str)} {n : ℕ} (h : (entriesText l).length ≤ n) (val : Str) :
    cutEntries val l n = l := by
  induction l generalizing val n with
  | nil => rfl
  | cons it l ih =>
    simp only [entriesText_cons, List.length_append, List.length_cons] at h
    rw [cutEntries, if_neg (by omega), ih (by omega)]

theorem cutEntries_append (val : Str) (l : List (Str × Str)) {it : Str × Str} (r : List (Str × Str))
    {c : ℕ} (hc : c < it.1.length + it.2.length + 2) :
    cutEntries val (l ++ it :: r) ((entriesText l).length + c) =
      l ++ cutEntry (lastAddress val l) it c := by
  induction l generalizing val with
  | nil => rw [List.nil_append, cutEntries, entriesText_nil, List.length_nil, Nat.zero_add, if_pos hc]; rfl
  | cons q l ih =>
    have hlen : (entriesText (q :: l)).length + c =
        q.1.length + q.2.length + 2 + ((entriesText l).length + c) := by
      simp only [entriesText_cons, List.length_append, List.length_cons]
      omega
    rw [List.cons_append, cutEntries, hlen, if_neg (by omega), Nat.add_sub_cancel_left, ih,
      List.cons_append, lastAddress]

/-- A text that is not whole is cut in one entry, those before it being whole. -/
theorem exists_cut {L : List (Str × Str)} {n : ℕ} (h : n < (entriesText L).length) :
    ∃ l it r c, L = l ++ it :: r ∧ n = (entriesText l).length + c ∧
      c < it.1.length + it.2.length + 2 := by
  induction L generalizing n with
  | nil => simp at h
  | cons q L ih =>
    simp only [entriesText_cons, List.length_append, List.length_cons] at h
    by_cases hq : n < q.1.length + q.2.length + 2
    · exact ⟨[], q, L, n, rfl, by simp, hq⟩
    · obtain ⟨l, it, r, c, rfl, hn, hc⟩ := ih (n := n - (q.1.length + q.2.length + 2)) (by omega)
      refine ⟨q :: l, it, r, c, rfl, ?_, hc⟩
      simp only [entriesText_cons, List.length_append, List.length_cons]
      omega

theorem length_entriesText_append (l r : List (Str × Str)) :
    (entriesText (l ++ r)).length = (entriesText l).length + (entriesText r).length := by
  rw [entriesText, List.flatMap_append, List.length_append]
  rfl

theorem length_entriesText_singleton (it : Str × Str) :
    (entriesText [it]).length = it.1.length + it.2.length + 2 := by
  simp only [entriesText_cons, entriesText_nil, List.length_append, List.length_cons, List.length_nil]
  omega

/-- Of an entry that is cut at most one assignment is left, to a beginning of its name. -/
theorem cutEntry_cases (val : Str) (it : Str × Str) (c : ℕ) :
    cutEntry val it c = [] ∨ ∃ key owner, cutEntry val it c = [(key, owner)] ∧ key <+: it.1 := by
  rw [cutEntry]
  split_ifs with hzero hname
  · exact Or.inl rfl
  · exact Or.inr ⟨_, _, rfl, List.take_prefix _ _⟩
  · exact Or.inr ⟨_, _, rfl, List.prefix_refl _⟩

/-- When the assignment left of a cut entry is the entry. -/
theorem cutEntry_eq_iff {val : Str} {it : Str × Str} {c : ℕ} (hc : c < it.1.length + it.2.length + 2)
    (hne : it.2 ≠ []) :
    cutEntry val it c = [it] ↔
      c = it.1.length + it.2.length + 1 ∨ it.1 ≠ [] ∧ c = it.1.length ∧ val = it.2 := by
  have hpos := List.length_pos_iff.mpr hne
  rw [cutEntry]
  split_ifs with hzero hname
  · have hname : it.1 = [] ↔ it.1.length = 0 := List.length_eq_zero_iff.symm
    rw [Ne, hname]
    constructor
    · intro h
      simp at h
    · omega
  · rw [List.cons.injEq, Prod.ext_iff, and_iff_left rfl, List.take_eq_self_iff]
    have hname' : it.1 ≠ [] := List.length_pos_iff.mp (by omega)
    simp only [hname', ne_eq, not_false_eq_true, true_and]
    constructor
    · rintro ⟨hle, hval⟩
      exact Or.inr ⟨by omega, hval⟩
    · rintro (h | ⟨h, hval⟩)
      · omega
      · exact ⟨h.ge, hval⟩
  · rw [List.cons.injEq, Prod.ext_iff, and_iff_left rfl, List.take_eq_self_iff]
    simp only [true_and]
    omega

/-! ## What is left of a table -/

/-- The names before the one that is cut keep their owners, and the names behind it are gone. The cut
name itself may be stored under a beginning of it. -/
theorem find?_cutEntries {m : StrMap} {l r : List (Str × Str)} {it : Str × Str}
    (hm : m.toList = l ++ it :: r) (val : Str) {c : ℕ} (hc : c < it.1.length + it.2.length + 2) :
    ∃ key, key <+: it.1 ∧ ∀ f, f ≠ key →
      (SortedMap.assignAll ∅ (cutEntries val m.toList ((entriesText l).length + c))).find? f =
        if f < it.1 then m.find? f else none := by
  have hsorted := hm ▸ m.sorted
  have hbefore : ∀ q ∈ l, q.1 < it.1 := fun q hq =>
    (List.pairwise_append.mp hsorted).2.2 q hq it List.mem_cons_self
  have hbehind : ∀ q ∈ it :: r, it.1 ≤ q.1 := by
    have hr := (List.pairwise_cons.mp (List.pairwise_append.mp hsorted).2.1).1
    intro q hq
    obtain rfl | hq := List.mem_cons.mp hq
    · exact le_refl _
    · exact (hr q hq).le
  have hfind : ∀ f, (SortedMap.assignAll ∅ l).find? f = if f < it.1 then m.find? f else none := by
    intro f
    split_ifs with hf
    · have hsplit : m.find? f = ((SortedMap.assignAll ∅ l).assignAll (it :: r)).find? f := by
        rw [← SortedMap.assignAll_append, ← hm, SortedMap.assignAll_toList]
      have hnot : f ∉ (it :: r).map Prod.fst := by
        intro hmem
        obtain ⟨q, hq, rfl⟩ := List.mem_map.mp hmem
        exact absurd (hbehind q hq) (not_le.mpr hf)
      rw [hsplit, SortedMap.find?_assignAll_of_notMem hnot]
    · by_contra hne
      obtain ⟨q, hq, rfl⟩ := List.mem_map.mp ((SortedMap.find?_assignAll_ne_none l f).mp hne)
      exact hf (hbefore q hq)
  rw [hm, cutEntries_append val l r hc]
  obtain hcut | ⟨key, owner, hcut, hpre⟩ := cutEntry_cases (lastAddress val l) it c
  · exact ⟨[], List.nil_prefix, fun f _ => by rw [hcut, List.append_nil, hfind]⟩
  · refine ⟨key, hpre, fun f hf => ?_⟩
    rw [hcut, SortedMap.assignAll_append, SortedMap.assignAll_cons, SortedMap.assignAll_nil,
      SortedMap.find?_insert, if_neg hf, hfind]

/-- The assignments left of a cut table rebuild it only if they are its entries. -/
theorem assignAll_cut_eq_iff {m : StrMap} {l r : List (Str × Str)} {it : Str × Str}
    (hm : m.toList = l ++ it :: r) {val : Str} {c : ℕ} :
    SortedMap.assignAll ∅ (l ++ cutEntry val it c) = m ↔ r = [] ∧ cutEntry val it c = [it] := by
  have hkeys := hm ▸ m.keys_nodup
  rw [List.map_append, List.nodup_append] at hkeys
  obtain ⟨-, htail, hdisj⟩ := hkeys
  constructor
  · intro h
    -- a name that is not in `l` must be the one that is left of the cut entry
    have hmem : ∀ q ∈ it :: r, ∃ owner, cutEntry val it c = [(q.1, owner)] := by
      intro q hq
      have hne : m.find? q.1 ≠ none := by
        rw [m.find?_ne_none, hm]
        exact List.mem_map_of_mem (List.mem_append_right _ hq)
      rw [← h, SortedMap.find?_assignAll_ne_none, List.map_append, List.mem_append] at hne
      have hnot : q.1 ∉ l.map Prod.fst := fun hl =>
        hdisj _ hl _ (List.mem_map_of_mem hq) rfl
      obtain hcut | ⟨key, owner, hcut, -⟩ := cutEntry_cases val it c
      · rw [hcut] at hne
        exact absurd (hne.resolve_left hnot) List.not_mem_nil
      · rw [hcut] at hne
        obtain rfl := List.mem_singleton.mp (hne.resolve_left hnot)
        exact ⟨owner, hcut⟩
    obtain ⟨owner, hcut⟩ := hmem it List.mem_cons_self
    constructor
    · rw [List.eq_nil_iff_forall_not_mem]
      intro q hq
      obtain ⟨owner', hcut'⟩ := hmem q (List.mem_cons_of_mem _ hq)
      rw [hcut, List.cons.injEq, Prod.mk.injEq] at hcut'
      exact (List.nodup_cons.mp htail).1 (hcut'.1.1 ▸ List.mem_map_of_mem hq)
    · have hfind : m.find? it.1 = some it.2 := (m.find?_eq_some _ _).mpr (by rw [hm]; simp)
      rw [← h, hcut, SortedMap.assignAll_append, SortedMap.assignAll_cons, SortedMap.assignAll_nil,
        SortedMap.find?_insert, if_pos rfl] at hfind
      obtain rfl : owner = it.2 := Option.some.inj hfind
      exact hcut
  · rintro ⟨rfl, hcut⟩
    rw [hcut, ← hm, SortedMap.assignAll_toList]

/-- The last two entries have one address, and the text ends with the name of the last. -/
def EndsInName (L : List (Str × Str)) (n : ℕ) : Prop :=
  ∃ l it₁ it₂, L = l ++ [it₁, it₂] ∧ it₁.2 = it₂.2 ∧ (entriesText L).length = n + it₂.2.length + 2

theorem EndsInName.pos {L : List (Str × Str)} {n : ℕ} (h : EndsInName L n) : 0 < n := by
  obtain ⟨l, it₁, it₂, hL, -, hlen⟩ := h
  have hsplit : L = (l ++ [it₁]) ++ [it₂] := by rw [hL]; simp
  rw [hsplit, length_entriesText_append, length_entriesText_append, length_entriesText_singleton,
    length_entriesText_singleton] at hlen
  omega

theorem assignAll_cutEntries_eq_iff {m : StrMap} (hne : ∀ it ∈ m.toList, it.2 ≠ []) (n : ℕ) :
    SortedMap.assignAll ∅ (cutEntries [] m.toList n) = m ↔
      (entriesText m.toList).length ≤ n + 1 ∨ EndsInName m.toList n := by
  constructor
  · intro h
    by_cases hle : (entriesText m.toList).length ≤ n
    · exact Or.inl (hle.trans (Nat.le_succ n))
    · obtain ⟨l, it, r, c, hm, rfl, hc⟩ := exists_cut (not_le.mp hle)
      have hit := hne it (by rw [hm]; simp)
      rw [hm, cutEntries_append [] l r hc, assignAll_cut_eq_iff hm, cutEntry_eq_iff hc hit] at h
      obtain ⟨rfl, rfl | ⟨-, rfl, hval⟩⟩ := h
      · rw [hm, length_entriesText_append, length_entriesText_singleton]
        exact Or.inl (by omega)
      · rcases List.eq_nil_or_concat' l with rfl | ⟨l, q, rfl⟩
        · exact absurd hval.symm hit
        · rw [lastAddress_concat] at hval
          refine Or.inr ⟨l, q, it, by rw [hm]; simp, hval, ?_⟩
          rw [hm, length_entriesText_append, length_entriesText_singleton]
          omega
  · rintro (hle | ⟨l, it₁, it₂, hm, hval, hlen⟩)
    · rcases Nat.lt_or_ge n (entriesText m.toList).length with hlt | hge
      · obtain ⟨l, it, r, c, hm, rfl, hc⟩ := exists_cut hlt
        rw [hm, List.append_cons, length_entriesText_append, length_entriesText_append,
          length_entriesText_singleton] at hle
        have hr : r = [] := by
          have hshort := length_le_entriesText r
          exact List.length_eq_zero_iff.mp (by omega)
        rw [hm, cutEntries_append [] l r hc, assignAll_cut_eq_iff hm,
          cutEntry_eq_iff hc (hne it (by rw [hm]; simp))]
        exact ⟨hr, Or.inl (by omega)⟩
      · rw [cutEntries_of_le hge, SortedMap.assignAll_toList]
    · have hsplit : m.toList = (l ++ [it₁]) ++ it₂ :: [] := by rw [hm]; simp
      have hname : it₂.1 ≠ [] := by
        have hlt := (List.pairwise_append.mp (hm ▸ m.sorted)).2.1
        have hlt := (List.pairwise_cons.mp hlt).1 it₂ (List.mem_singleton_self _)
        exact fun hnil => absurd (hnil ▸ hlt) (List.not_lt_nil _)
      rw [hsplit, length_entriesText_append, length_entriesText_singleton] at hlen
      obtain rfl : n = (entriesText (l ++ [it₁])).length + it₂.1.length := by omega
      have hc : it₂.1.length < it₂.1.length + it₂.2.length + 2 := by omega
      rw [hsplit, cutEntries_append [] _ [] hc, lastAddress_concat, assignAll_cut_eq_iff hsplit,
        cutEntry_eq_iff hc (hne it₂ (by rw [hsplit]; simp))]
      exact ⟨rfl, Or.inr ⟨hname, rfl, hval⟩⟩

/-! ## What a peer starts with -/

/-- The first `n` bytes of a reply leave nothing out, or what they leave out is the address that the loop
still has from the entry before. -/
theorem parseStartup_take_eq_iff {nd my_node : Node} (h : nd.Printable) (hmy : my_node.myFileInfo = ∅)
    (hpdr : my_node.pdr = []) (n : ℕ) :
    parseStartup my_node ((replyText nd).take n) = my_node.startedAs nd ↔
      (replyText nd).length ≤ n + 1 ∨
        nd.headLength ≤ n ∧ EndsInName nd.myFileInfo.toList (n - nd.headLength) := by
  have hne : ∀ it ∈ nd.myFileInfo.toList, it.2 ≠ [] := fun it hit => (h.entries it hit).2.2
  have hpos := List.length_pos_iff.mpr h.pdr_ne_nil
  have hfields : parseStartup my_node ((replyText nd).take n) = my_node.startedAs nd ↔
      nd.scr.length ≤ n ∧ nd.pdr.length ≤ n - (nd.scr.length + 1) ∧
        SortedMap.assignAll ∅ (cutEntries [] nd.myFileInfo.toList (n - nd.headLength)) =
          nd.myFileInfo := by
    rw [parseStartup_take h hmy hpdr, Node.startedAs, Node.mk.injEq]
    simp [List.take_eq_self_iff]
  have hlen : (replyText nd).length = nd.headLength + (entriesText nd.myFileInfo.toList).length :=
    length_replyText nd
  rw [hfields, assignAll_cutEntries_eq_iff hne, hlen]
  have hsmall : (entriesText nd.myFileInfo.toList).length ≤ 1 →
      (entriesText nd.myFileInfo.toList).length = 0 := by
    cases nd.myFileInfo.toList with
    | nil => exact fun _ => rfl
    | cons it l =>
      simp only [entriesText_cons, List.length_append, List.length_cons]
      omega
  have hhead : nd.headLength = nd.scr.length + nd.pdr.length + 2 := rfl
  constructor
  · rintro ⟨hscr, hpdr, hle | hends⟩
    · exact Or.inl (by omega)
    · have hcut := hends.pos
      exact Or.inr ⟨by omega, hends⟩
  · rintro (hle | ⟨hle, hends⟩)
    · exact ⟨by omega, by omega, Or.inl (by omega)⟩
    · exact ⟨by omega, by omega, Or.inr hends⟩

section
variable {inet_addr : Str → UInt32} {payloads : List Str} {B : BootstrapRun payloads}

theorem recvinfo_reply {i : ℕ} {nd : Node} {d : Datagram} (hnd : B.peers[i]? = some nd)
    (hd : sendReply inet_addr nd = some d) : recvinfo d.payload = (replyText nd).take recvLen := by
  have h0 := nul_notMem_replyText hnd
  obtain ⟨-, rfl⟩ := sendreq_eq_some inet_addr hd
  rw [cstr_of_notMem h0, recvinfo_of_notMem h0]

/-- A peer starts with what the bootstrap computed for it exactly if the text of the reply is at most one
separator longer than what is read, or is read up to the name of the last entry, the owner of which
is the owner of the name before. -/
theorem startsRight_iff {i : ℕ} {nd my_node : Node} {d : Datagram} (hnd : B.peers[i]? = some nd)
    (hd : sendReply inet_addr nd = some d) (hmy : my_node.myFileInfo = ∅) (hpdr : my_node.pdr = []) :
    parseStartup my_node (recvinfo d.payload) = my_node.startedAs nd ↔
      replyLength B.all_info i ≤ recvLen + 1 ∨
        nd.headLength ≤ recvLen ∧ EndsInName nd.myFileInfo.toList (recvLen - nd.headLength) := by
  rw [recvinfo_reply hnd hd, ← length_replyText_peer hnd]
  exact parseStartup_take_eq_iff (BootstrapRun.peer_printable hnd) hmy hpdr recvLen

/-- A peer whose reply is cut in the table knows its neighbours and, but for one name, the right owners of
the names before the cut and no others. -/
theorem cut_reply_table {i : ℕ} {nd my_node : Node} {d : Datagram} (hnd : B.peers[i]? = some nd)
    (hd : sendReply inet_addr nd = some d) (hmy : my_node.myFileInfo = ∅) (hpdr : my_node.pdr = [])
    (hhead : nd.headLength ≤ recvLen) (hlong : recvLen < replyLength B.all_info i) :
    (parseStartup my_node (recvinfo d.payload)).scr = nd.scr ∧
      (parseStartup my_node (recvinfo d.payload)).pdr = nd.pdr ∧
      ∃ l it r, nd.myFileInfo.toList = l ++ it :: r ∧
        nd.headLength + (entriesText l).length ≤ recvLen ∧
        recvLen < nd.headLength + (entriesText (l ++ [it])).length ∧
        ∃ key, key <+: it.1 ∧ ∀ f, f ≠ key →
          (parseStartup my_node (recvinfo d.payload)).myFileInfo.find? f =
            if f < it.1 then nd.myFileInfo.find? f else none := by
  have hlen : (replyText nd).length = nd.headLength + (entriesText nd.myFileInfo.toList).length :=
    length_replyText nd
  rw [← length_replyText_peer hnd, hlen] at hlong
  rw [recvinfo_reply hnd hd, parseStartup_take (BootstrapRun.peer_printable hnd) hmy hpdr]
  have hsum : nd.headLength = nd.scr.length + nd.pdr.length + 2 := rfl
  obtain ⟨l, it, r, c, hm, hcut, hc⟩ := exists_cut
    (L := nd.myFileInfo.toList) (n := recvLen - nd.headLength) (by omega)
  obtain ⟨key, hkey, hfind⟩ := find?_cutEntries hm [] hc
  refine ⟨List.take_of_length_le (by omega), List.take_of_length_le (by omega), l, it, r, hm,
    by omega, ?_, key, hkey, fun f hf => ?_⟩
  · rw [length_entriesText_append, length_entriesText_singleton]
    omega
  · rw [← hfind f hf, hcut]

end

/-! ## The crowded peer again -/

theorem crowdedRun_reply : ∃ nd d, crowdedRun.peers[0]? = some nd ∧ sendReply dottedQuad nd = some d ∧
    nd.headLength = 28 := by
  obtain ⟨nd, hnd⟩ := BootstrapRun.exists_peer (B := crowdedRun) (i := 0) Nat.zero_lt_one
  have hlen : replyLength crowdedRun.all_info 0 = 1078 := by decide +kernel
  have hfits : (replyText nd).length < LEN := by
    rw [length_replyText_peer hnd, hlen]
    decide
  refine ⟨nd, _, hnd, sendreq_of_lt dottedQuad _ _ (nul_notMem_replyText hnd) hfits, ?_⟩
  have hhead : crowdedRun.peers[0]?.map Node.headLength = some 28 := by decide +kernel
  rw [hnd] at hhead
  exact Option.some.inj hhead

theorem startsRight_crowded : ∃ (nd : Node) (d : Datagram), crowdedRun.peers[0]? = some nd ∧
    (parseStartup {} (recvinfo d.payload) = Node.startedAs {} nd ↔
      replyLength crowdedRun.all_info 0 ≤ recvLen + 1 ∨
        nd.headLength ≤ recvLen ∧ EndsInName nd.myFileInfo.toList (recvLen - nd.headLength)) := by
  obtain ⟨nd, d, hnd, hd, -⟩ := crowdedRun_reply
  exact ⟨nd, d, hnd, startsRight_iff hnd hd rfl rfl⟩

theorem cut_reply_crowded : ∃ (nd : Node) (d : Datagram), crowdedRun.peers[0]? = some nd ∧
    ∃ it ∈ nd.myFileInfo.toList, ∃ key, key <+: it.1 ∧ ∀ f, f ≠ key →
      (parseStartup {} (recvinfo d.payload)).myFileInfo.find? f =
        if f < it.1 then nd.myFileInfo.find? f else none := by
  obtain ⟨nd, d, hnd, hd, hhead⟩ := crowdedRun_reply
  have hlen : replyLength crowdedRun.all_info 0 = 1078 := by decide +kernel
  have hnew : ({} : Node).myFileInfo = ∅ ∧ ({} : Node).pdr = [] := ⟨rfl, rfl⟩
  obtain ⟨-, -, l, it, r, hm, -, -, hkey⟩ :=
    cut_reply_table hnd hd hnew.1 hnew.2 (by rw [hhead]; decide) (by rw [hlen]; decide)
  exact ⟨nd, d, hnd, it, by rw [hm]; simp, hkey⟩

end ComputerNetworks.PeerRing
