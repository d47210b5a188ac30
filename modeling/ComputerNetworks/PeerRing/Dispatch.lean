import ComputerNetworks.PeerRing.Peer

/-! # Telling messages apart

The service loop looks for `owner_of` and then for `search` anywhere in the bytes it has read. An
answer always carries its keyword at the front. A request carries `search` at the front as well, but
the name and the address come from users and may contain the other keyword. `recognised_iff` says
exactly when both kinds of message are taken for what they are: no separator can take part in an
occurrence, since the keyword has no space, and what the read cuts off does not count.
-/
namespace ComputerNetworks.PeerRing
set_option autoImplicit false

theorem space_notMem_owner_of : space ∉ bytes "owner_of" := by decide

theorem infix_recvinfo_append {w r : Str} (h0 : (0 : Byte) ∉ w) (hlen : w.length ≤ recvLen) :
    w <:+: recvinfo (w ++ r) := by
  have hfront : recvinfo (w ++ r) = w ++ cstr (r.take (recvLen - w.length)) := by
    rw [recvinfo, List.take_append, List.take_of_length_le hlen, cstr,
      List.takeWhile_append_of_pos]
    · rfl
    · intro b hb
      simpa using fun hb0 : b = 0 => h0 (hb0 ▸ hb)
  rw [hfront]
  exact (List.prefix_append _ _).isInfix

theorem search_infix_recvinfo (f a : Str) : bytes "search" <:+: recvinfo (requestText f a) := by
  rw [requestText_eq]
  exact infix_recvinfo_append (by decide) (by decide)

theorem owner_of_infix_take (f a : Str) (k : ℕ) :
    bytes "owner_of" <:+: (requestText f a).take (k + 12) ↔
      bytes "owner_of" <:+: f.take (k + 5) ∨ bytes "owner_of" <:+: a.take (k - f.length) := by
  have hne : bytes "owner_of" ≠ [] := by decide
  have hsearch : ¬ bytes "owner_of" <:+: bytes "search" := by decide
  have hfor : ¬ bytes "owner_of" <:+: (bytes "for").take (k + 12 - 6 - 1 - f.length - 1) :=
    fun h => absurd (h.trans (List.take_prefix _ _).isInfix) (by decide)
  have h6 : (bytes "search").length = 6 := by decide
  have h3 : (bytes "for").length = 3 := by decide
  have hname : k + 12 - 6 - 1 = k + 5 := by omega
  have haddr : k + 12 - 6 - 1 - f.length - 1 - 3 - 1 = k - f.length := by omega
  rw [requestText_eq, infix_take_append_cons_iff space_notMem_owner_of hne, h6,
    infix_take_append_cons_iff space_notMem_owner_of hne,
    infix_take_append_cons_iff space_notMem_owner_of hne, h3]
  rw [haddr, hname]
  rw [hname] at hfor
  have hsix : ¬ bytes "owner_of" <:+: (bytes "search").take (k + 12) :=
    fun h => hsearch (h.trans (List.take_prefix _ _).isInfix)
  simp [hsix, hfor]

theorem dispatch_requestText {f a : Str} (hf : (0 : Byte) ∉ f) (ha : (0 : Byte) ∉ a) :
    dispatch (recvinfo (requestText f a)) =
      if bytes "owner_of" <:+: f.take 993 ∨ bytes "owner_of" <:+: a.take (988 - f.length)
        then .printed else .searched := by
  have h0 := nul_notMem_requestText hf ha
  have howner := owner_of_infix_take f a 988
  rw [dispatch, if_pos (search_infix_recvinfo f a)]
  rw [recvinfo_of_notMem h0]
  exact if_congr howner rfl rfl

theorem dispatch_ownerText (f a : Str) : dispatch (recvinfo (ownerText f a)) = .printed := by
  have htext : ownerText f a = bytes "owner_of" ++ ([space] ++ f ++ bytes " is " ++ a) := by
    have hkey : bytes "owner_of " = bytes "owner_of" ++ [space] := by decide
    simp [ownerText, hkey]
  rw [dispatch, if_pos]
  rw [htext]
  exact infix_recvinfo_append (by decide) (by decide)

/-- The service loop takes the request and the answer with this name and this address for what
they are. -/
def Recognised (f a : Str) : Prop :=
  dispatch (recvinfo (requestText f a)) = .searched ∧
    dispatch (recvinfo (ownerText f a)) = .printed

instance (f a : Str) : Decidable (Recognised f a) :=
  inferInstanceAs (Decidable (_ ∧ _))

/-- Both kinds of message are recognised exactly if `owner_of` occurs neither in the part of the
name nor in the part of the address that is read. -/
theorem recognised_iff (f ip port : Word) :
    Recognised f.val (ip.val ++ colon :: port.val) ↔
      ¬ bytes "owner_of" <:+: f.val.take 993 ∧
        ¬ bytes "owner_of" <:+: (ip.val ++ colon :: port.val).take (988 - f.val.length) := by
  have ha : (0 : Byte) ∉ ip.val ++ colon :: port.val := by
    have hcolon : (0 : Byte) ≠ colon := by decide
    simp [ip.no_nul, port.no_nul, hcolon]
  rw [Recognised, dispatch_requestText f.no_nul ha]
  simp only [dispatch_ownerText, and_true, ← not_or]
  split_ifs with h
  · simp [h]
  · simp [h]

theorem owner_of_not_recognised :
    ¬ ∀ f ip port : Word, Recognised f.val (ip.val ++ colon :: port.val) := by
  intro h
  have := h ⟨bytes "owner_of", by decide +kernel, by decide +kernel, by decide +kernel⟩
    ⟨bytes "10.0.0.1", by decide +kernel, by decide +kernel, by decide +kernel⟩
    ⟨bytes "8001", by decide +kernel, by decide +kernel, by decide +kernel⟩
  exact absurd this (by decide +kernel)

/-- On a request that is read whole and recognised, a turn of the service loop is one call of
`search_func`. -/
theorem serviceTurn_requestText {inet_addr : Str → UInt32} {f a : Str} {nd : Node}
    (hf : (0 : Byte) ∉ f) (ha : (0 : Byte) ∉ a) (hlen : (requestText f a).length ≤ recvLen)
    (hrec : Recognised f a) :
    serviceTurn inet_addr nd (requestText f a) =
      (searchFunc inet_addr (requestText f a) nd).map fun out => (.searched, [out]) := by
  have h0 := nul_notMem_requestText hf ha
  have hwhole := recvinfo_of_le h0 hlen
  have hdisp := hrec.1
  rw [hwhole] at hdisp
  simp only [serviceTurn, hwhole, hdisp]

end ComputerNetworks.PeerRing
