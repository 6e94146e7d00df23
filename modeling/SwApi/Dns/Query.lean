import SwApi.Dns.Names

/-! The query for a host name is read back by `parse_alias`. -/
namespace SwApi.Dns
open Library List

structure HostName where
  labels : List Bytes
  nonempty : labels ≠ []
  valid : ∀ label ∈ labels, IsLabel label ∧ 0 ∉ label ∧ 46 ∉ label

def HostName.text (name : HostName) : Bytes := dotted name.labels

def wire (labels : List Bytes) : Bytes := labels.flatMap fun label =>
    UInt8.ofNat label.length :: label

theorem wire_cons : wire (label :: labels) = UInt8.ofNat label.length :: (label ++ wire labels) :=
  rfl

theorem wire_length_cons : (wire (label :: labels)).length =
    label.length + 1 + (wire labels).length := by
  rw [wire_cons, length_cons, length_append]
  omega

theorem flatMap_dot_length : (labels.flatMap (46 :: ·)).length = (wire labels).length := by
  induction labels with
  | nil => rfl
  | cons label labels ih =>
    rw [wire_length_cons, ← ih, flatMap_cons, length_append, length_cons]

theorem HostName.wire_length (name : HostName) :
    (wire name.labels).length = name.text.length + 1 := by
  obtain ⟨labels, hne, -⟩ := name
  cases labels with
  | nil => exact absurd rfl hne
  | cons label labels =>
    show (wire (label :: labels)).length = (dotted (label :: labels)).length + 1
    rw [wire_length_cons, dotted_cons, length_append, flatMap_dot_length]
    omega

theorem HostName.splitOn (name : HostName) : name.text.splitOn 46 = name.labels :=
  splitOn_intercalate 46 (fun label hl => (name.valid label hl).2.2) name.nonempty

theorem nameLoop_fits (h : (out.length : Int) + (wire labels).length ≤ buflen - 6) :
    nameLoop buflen labels out = (true, out ++ wire labels) := by
  induction labels generalizing out with
  | nil => simp [nameLoop, wire]
  | cons label labels ih =>
    rw [wire_length_cons] at h
    rw [nameLoop, if_neg (by omega), ih (by simp only [length_append, length_cons]; omega),
      wire_cons]
    simp

theorem nameLoop_refuses (hne : labels ≠ [])
    (hout : (out.length : Int) ≤ buflen - 6) (h : buflen - 6 < out.length + (wire labels).length) :
    ∃ out', nameLoop buflen labels out = (false, out') ∧ (out'.length : Int) ≤ buflen - 6 := by
  induction labels generalizing out with
  | nil => exact absurd rfl hne
  | cons label labels ih =>
    rw [wire_length_cons] at h
    rw [nameLoop]
    split
    · exact ⟨out, rfl, hout⟩
    · have hlength : (out ++ UInt8.ofNat label.length :: label).length = out.length + label.length +
        1 := by
        simp only [length_append, length_cons]
        omega
      apply ih
      · rintro rfl
        rw [wire, flatMap_nil, length_nil] at h
        omega
      · rw [hlength]
        omega
      · rw [hlength]
        omega

theorem wire_getLast? (name : HostName) : (wire name.labels).getLast? ≠ some 0 := by
  obtain ⟨labels, hne, hvalid⟩ := name
  induction labels with
  | nil => exact absurd rfl hne
  | cons label labels ih =>
    show (wire (label :: labels)).getLast? ≠ some 0
    rw [wire_cons]
    cases labels with
    | nil =>
      obtain ⟨hlabel, hzero, -⟩ := hvalid label mem_cons_self
      have hlast := getLast?_eq_some_getLast (length_pos_iff.1 hlabel.1)
      rw [wire, flatMap_nil, append_nil, getLast?_cons, hlast]
      intro heq
      exact hzero (Option.some.inj heq ▸ getLast_mem _)
    | cons next labels =>
      have hrest := ih (cons_ne_nil next labels) (forall_mem_cons.1 hvalid).2
      rw [← cons_append, getLast?_append_of_ne_nil]
      · exact hrest
      · rw [wire_cons]
        exact cons_ne_nil _ _

def encoded (name : HostName) : Bytes := wire name.labels ++ [0]

theorem encoded_length (name : HostName) : (encoded name).length = name.text.length + 2 := by
  rw [encoded, length_append, name.wire_length]
  rfl

theorem makeNameQuery_fits (h : (name.text.length : Int) + 7 ≤ buflen) :
    makeNameQuery buflen name.text = ⟨some (name.text.length + 6),
    encoded name ++ [0, 1, 0, 1]⟩ := by
  have hloop : nameLoop buflen name.labels [] = (true, wire name.labels) := by
    apply nameLoop_fits
    rw [name.wire_length, length_nil]
    omega
  have hlength := encoded_length name
  rw [encoded] at hlength
  rw [makeNameQuery, name.splitOn, hloop]
  simp only [if_neg (wire_getLast? name), hlength, encoded]

theorem makeNameQuery_refuses {name : HostName} (hbuf : 6 ≤ buflen)
    (h : buflen < (name.text.length : Int) + 7) :
    (makeNameQuery buflen name.text).ret = none ∧
    ((makeNameQuery buflen name.text).out.length : Int) ≤ buflen := by
  have hloop : ∃ out, nameLoop buflen name.labels [] = (false, out) ∧
    (out.length : Int) ≤ buflen - 6 := by
    apply nameLoop_refuses name.nonempty
    · rw [length_nil]
      omega
    · rw [name.wire_length, length_nil]
      omega
  obtain ⟨out, hout, hlength⟩ := hloop
  rw [makeNameQuery, name.splitOn, hout]
  exact ⟨rfl, show (out.length : Int) ≤ buflen by omega⟩

theorem queryHeader_length : (queryHeader transactionId).length = 12 := rfl

theorem makeDnsQuery_refuses {name : HostName} (h : buflen < (name.text.length : Int) + 19) :
    (makeDnsQuery buflen transactionId name.text).ret = none ∧
      ∀ i, i < (makeDnsQuery buflen transactionId name.text).out.length → (i : Int) < buflen := by
  rw [makeDnsQuery]
  split
  · exact ⟨rfl, fun i hi => absurd hi (Nat.not_lt_zero i)⟩
  · have hlt : buflen - 12 < (name.text.length : Int) + 7 := by omega
    obtain ⟨hret, hlength⟩ := makeNameQuery_refuses (by omega) hlt
    refine ⟨congrArg (Option.map (12 + ·)) hret, ?_⟩
    intro i hi
    rw [length_append, queryHeader_length] at hi
    omega

theorem nameAt_wire (hlabels : ∀ label ∈ labels, IsLabel label)
    (hbuf : slice buf pos (wire labels ++ [0]).length = wire labels ++ [0])
    (hlen : pos + (wire labels ++ [0]).length ≤ responseLen) :
    NameAt buf responseLen pos labels (wire labels ++ [0]).length := by
  induction labels generalizing pos with
  | nil =>
    obtain ⟨hzero, -⟩ := slice_cons hbuf
    exact .root (Nat.lt_of_succ_le hlen) hzero
  | cons label labels ih =>
    rw [wire_cons, cons_append, append_assoc] at hbuf hlen
    obtain ⟨hfirst, hbuf⟩ := slice_cons hbuf
    obtain ⟨hlabel, hrest⟩ := slice_append hbuf
    have hlength : (wire (label :: labels) ++ [0]).length =
      1 + label.length + (wire labels ++ [0]).length := by
      rw [length_append, wire_length_cons, length_append]
      omega
    rw [length_cons, length_append] at hlen
    rw [hlength]
    apply NameAt.label (hlabels label mem_cons_self) hfirst hlabel
    apply ih (forall_mem_cons.1 hlabels).2 hrest
    omega

theorem parseAlias_encoded {head : Bytes}
    (hbuf : slice buf 0 (head ++ (encoded name ++ trailer)).length =
    head ++ (encoded name ++ trailer)) :
    ∃ fuel, (parseAlias fuel buf (head ++ (encoded name ++ trailer)).length head.length).result =
      some (name.text.length + 2, name.text) := by
  obtain ⟨-, hrest⟩ := slice_append hbuf
  obtain ⟨hname, -⟩ := slice_append hrest
  rw [Nat.zero_add] at hname
  have hat : NameAt buf (head ++ (encoded name ++ trailer)).length head.length name.labels
    (encoded name).length := by
    apply nameAt_wire (fun label hl => (name.valid label hl).1) hname
    show head.length + (encoded name).length ≤ _
    rw [length_append, length_append]
    omega
  obtain ⟨enough, henough⟩ := hat.spells.result
  refine ⟨enough, ?_⟩
  rw [henough enough (Nat.le_refl _), encoded_length]
  rfl

/-- All that is written is inside of the buffer; a query is refused only when its encoding does not
fit, and otherwise the name is found in it again. -/
structure Queried (name : HostName) (buflen : Int) (query : Written) : Prop where
  inside : ∀ i, i < query.out.length → (i : Int) < buflen
  refused : query.ret = none → buflen < (name.text.length : Int) + 18
  parsed : ∀ len, query.ret = some len → ∀ buf : Memory, slice buf 0 len = query.out →
    ∃ fuel n, (parseAlias fuel buf len 12).result = some (n, name.text) ∧ n + 16 = len

/-- The query is right except in a buffer that its encoding would just fill. -/
theorem queried_iff (name : HostName) (transactionId : UInt16) (buflen : Int) :
    Queried name buflen (makeDnsQuery buflen transactionId name.text) ↔
    buflen ≠ (name.text.length : Int) + 18 := by
  constructor
  · rintro ⟨-, hrefused, -⟩ rfl
    have hlt : (name.text.length : Int) + 18 < (name.text.length : Int) + 19 := by omega
    exact absurd (hrefused (makeDnsQuery_refuses hlt).1) (Int.lt_irrefl _)
  · intro hne
    rcases lt_or_ge buflen ((name.text.length : Int) + 19) with hlt | hle
    · obtain ⟨hret, hinside⟩ := makeDnsQuery_refuses hlt
      refine ⟨hinside, fun _ => by omega, ?_⟩
      intro len hlen
      rw [hret] at hlen
      cases hlen
    · have hquery : makeDnsQuery buflen transactionId name.text =
          ⟨some (name.text.length + 18), queryHeader transactionId ++
            (encoded name ++ [0, 1, 0, 1])⟩ := by
        rw [makeDnsQuery, if_neg (by omega), makeNameQuery_fits (by omega)]
        simp only [Option.map_some, Written.mk.injEq, Option.some.injEq, and_true]
        omega
      rw [hquery]
      have hlength : (queryHeader transactionId ++ (encoded name ++ [0, 1, 0, 1])).length =
        name.text.length + 18 := by
        rw [length_append, length_append, encoded_length, queryHeader_length]
        show 12 + (name.text.length + 2 + 4) = _
        omega
      refine ⟨?_, ?_, ?_⟩
      · intro i hi
        rw [hlength] at hi
        omega
      · intro hret
        cases hret
      · intro len hlen buf hbuf
        cases hlen
        rw [← hlength] at hbuf ⊢
        obtain ⟨fuel, hfuel⟩ := parseAlias_encoded hbuf
        exact ⟨fuel, name.text.length + 2, hfuel, by omega⟩

theorem a_valid : ∀ label ∈ ([[97]] : List Bytes), IsLabel label ∧ 0 ∉ label ∧ 46 ∉ label := by
  simp [IsLabel]

def shortName : HostName := ⟨[[97]], cons_ne_nil _ _, a_valid⟩

/-- The encoding has 19 bytes, and a buffer of 19 bytes is refused. -/
theorem full_buffer_is_refused :
    shortName.text.length + 18 = 19 ∧ (makeDnsQuery 19 1 shortName.text).ret = none ∧
      ¬Queried shortName 19 (makeDnsQuery 19 1 shortName.text) := by
  have hret : (makeDnsQuery 19 1 shortName.text).ret = none := by decide +kernel
  have hlength : shortName.text.length + 18 = 19 := by decide +kernel
  refine ⟨hlength, hret, ?_⟩
  intro h
  have hlt := h.refused hret
  omega

end SwApi.Dns
