import SwApi.Coap.Parse

/-! `coap_build`: what it writes, where it respects its buffer, and what `coap_parse` makes of
it. -/
namespace SwApi.Coap
open Library List

/-- The bytes for options whose first is written at the index `place`. -/
def optionBytes (junk : Nat → Nat) : List (CoapOption Bytes) → Nat → Nat → Bytes
  | [], _, _ => []
  | o :: options, runningDelta, place =>
      let text := buildOption (junk place) runningDelta o
      text ++ optionBytes junk options o.num.toNat (place + text.length)

def CoapPacket.optionText (junk : Nat → Nat) (pkt : CoapPacket Bytes) : Bytes :=
  optionBytes junk pkt.options 0 (4 + pkt.hdr.tkl.toNat)

abbrev CoapPacket.start (pkt : CoapPacket Bytes) : Bytes :=
  headerBytes pkt.hdr ++ pkt.tok.take pkt.hdr.tkl.toNat

def CoapPacket.Tokened (pkt : CoapPacket Bytes) : Prop :=
  0 < pkt.hdr.tkl.toNat → pkt.hdr.tkl.toNat = pkt.tok.length

section
variable {pkt : CoapPacket Bytes}

theorem buildOptions_true (n : Nat) (junk : Nat → Nat) (options : List (CoapOption Bytes))
    (runningDelta : Nat) (out : Bytes)
    (h : (buildOptions junk n options runningDelta out).1 = true) :
    (buildOptions junk n options runningDelta out).2 = out ++ optionBytes junk options runningDelta
    out.length := by
  induction options generalizing runningDelta out with
  | nil => rw [buildOptions, optionBytes, append_nil]
  | cons o options ih =>
    rw [buildOptions] at h ⊢
    split at h
    · cases h
    · rename_i hroom
      rw [if_neg hroom, ih _ _ h, optionBytes, append_assoc, length_append]

theorem buildOptions_fits (junk : Nat → Nat) (options : List (CoapOption Bytes))
    (runningDelta : Nat) (out : Bytes)
    (h : out.length + (optionBytes junk options runningDelta out.length).length ≤ n) :
    buildOptions junk n options runningDelta out =
    (true, out ++ optionBytes junk options runningDelta out.length) := by
  induction options generalizing runningDelta out with
  | nil => rw [buildOptions, optionBytes, append_nil]
  | cons o options ih =>
    rw [optionBytes] at h ⊢
    rw [length_append] at h
    rw [buildOptions, if_neg (by omega), ih _ _ (by rw [length_append]; omega), append_assoc,
      length_append]

theorem buildOptions_exceeds (junk : Nat → Nat) (options : List (CoapOption Bytes))
    (runningDelta : Nat) (out : Bytes)
    (hout : out.length ≤ n)
    (h : n < out.length + (optionBytes junk options runningDelta out.length).length) :
    n < (buildOptions junk n options runningDelta out).2.length := by
  induction options generalizing runningDelta out with
  | nil =>
    rw [optionBytes, length_nil] at h
    omega
  | cons o options ih =>
    rw [optionBytes] at h
    rw [length_append] at h
    rw [buildOptions, if_neg (Nat.not_lt.2 hout)]
    by_cases hfirst : (out ++ buildOption (junk out.length) runningDelta o).length ≤ n
    · refine ih _ _ hfirst ?_
      rw [length_append]
      omega
    · cases options with
      | nil => exact Nat.not_le.1 hfirst
      | cons o' options =>
        rw [buildOptions, if_pos (Nat.not_le.1 hfirst)]
        exact Nat.not_le.1 hfirst

theorem headerBytes_length (hdr : CoapHeader) : (headerBytes hdr).length = 4 := rfl

theorem CoapPacket.Tokened.start_length (h : pkt.Tokened) :
    pkt.start.length = 4 + pkt.hdr.tkl.toNat := by
  rw [length_append, headerBytes_length, length_take]
  rcases Nat.eq_zero_or_pos pkt.hdr.tkl.toNat with hzero | hpos
  · omega
  · have := h hpos
    omega

theorem coapBuild_eq (hroom : 4 + pkt.hdr.tkl.toNat ≤ n) (htok : pkt.Tokened) :
    coapBuild junk n pkt = buildRest n pkt.payload
      (buildOptions junk n pkt.options 0 pkt.start) := by
  rw [coapBuild, if_neg (Nat.not_lt.2 hroom), if_neg fun h => h.2 (htok h.1)]

theorem buildPayload_ok (h : (buildPayload n payload out).rc = none) :
    (buildPayload n payload out).out = out ++ encodePayload payload ∧
      (buildPayload n payload out).buflen = (buildPayload n payload out).out.length := by
  unfold buildPayload at h ⊢
  split
  · rename_i hpayload
    rw [if_pos hpayload] at h
    split
    · rename_i hsmall
      rw [if_pos hsmall] at h
      cases h
    · rw [encodePayload, if_neg (length_pos_iff.1 hpayload)]
      refine ⟨rfl, ?_⟩
      dsimp only
      rw [length_append, length_cons]
      omega
  · rename_i hpayload
    rw [encodePayload, if_pos (length_eq_zero_iff.1 (by omega)), append_nil]
    exact ⟨rfl, rfl⟩

theorem coapBuild_fits (htok : pkt.Tokened)
    (h : 4 + pkt.hdr.tkl.toNat + (pkt.optionText junk).length ≤ n) :
    coapBuild junk n pkt = buildPayload n pkt.payload
      (pkt.start ++ pkt.optionText junk) := by
  have hstart := htok.start_length
  have hfits := buildOptions_fits (n := n) junk pkt.options 0 pkt.start
    (by rwa [hstart])
  rw [hstart] at hfits
  rw [coapBuild_eq (by omega) htok, hfits]
  rfl

theorem coapBuild_exceeds (hroom : 4 + pkt.hdr.tkl.toNat ≤ n) (htok : pkt.Tokened)
    (h : n < 4 + pkt.hdr.tkl.toNat + (pkt.optionText junk).length) :
    n < (coapBuild junk n pkt).out.length := by
  have hstart := htok.start_length
  have hexceeds := buildOptions_exceeds (n := n) junk pkt.options 0
    pkt.start (by omega) (by rwa [hstart])
  rw [coapBuild_eq hroom htok]
  generalize buildOptions junk n pkt.options 0 pkt.start = r at hexceeds ⊢
  obtain ⟨ok, out⟩ := r
  cases ok with
  | false => exact hexceeds
  | true =>
    refine hexceeds.trans_le (IsPrefix.length_le ?_)
    show out <+: (buildPayload n pkt.payload out).out
    unfold buildPayload
    repeat' split
    all_goals first | exact prefix_rfl | exact prefix_append _ _

theorem coapBuild_ok (htok : pkt.Tokened) (h : (coapBuild junk n pkt).rc = none) :
    (coapBuild junk n pkt).out = pkt.start ++
        (pkt.optionText junk ++ encodePayload pkt.payload) ∧
      (coapBuild junk n pkt).buflen = (coapBuild junk n pkt).out.length := by
  have hroom : 4 + pkt.hdr.tkl.toNat ≤ n := by
    by_contra hroom
    rw [coapBuild, if_pos (Nat.not_le.1 hroom)] at h
    cases h
  have hstart := htok.start_length
  rw [coapBuild_eq hroom htok] at h ⊢
  have htrue := buildOptions_true n junk pkt.options 0 pkt.start
  generalize buildOptions junk n pkt.options 0 pkt.start = r at h htrue ⊢
  obtain ⟨ok, out⟩ := r
  cases ok with
  | false => cases h
  | true =>
    have hout := htrue rfl
    rw [hstart] at hout
    obtain ⟨hpayload, hlen⟩ := buildPayload_ok h
    refine ⟨?_, hlen⟩
    rw [← append_assoc]
    exact hpayload.trans (congrArg (· ++ encodePayload pkt.payload) hout)

end

def CoapOption.numbered (o : CoapOption Bytes) : Nat × Bytes := (o.num.toNat, o.buf)

def CoapPacket.distances (pkt : CoapPacket Bytes) : List (Nat × Bytes) :=
  Coap.distances 0 (pkt.options.map CoapOption.numbered)

structure Encodable (options : List (CoapOption Bytes)) : Prop where
  sorted : (options.map fun o => o.num.toNat).Pairwise (· ≤ ·)
  lengths : ∀ o ∈ options, o.buf.length ≤ Nibble.limit

def CoapPacket.encodedLength (pkt : CoapPacket Bytes) : Nat :=
  4 + pkt.hdr.tkl.toNat + (pkt.distances.flatMap encodeOption).length +
    (encodePayload pkt.payload).length

/-- The bytes of `coap_build` for a length: the first of two is that of the length itself. -/
def lengthBytes (size : Nat) : Bytes :=
  if size < 269 then Nibble.extension size else [UInt8.ofNat (size / 256), UInt8.ofNat (size - 269)]

theorem coapOptionNibble_eq (hv : v ≤ Nibble.limit) : coapOptionNibble v x = Nibble.nibble v := by
  unfold Nibble.limit at hv
  rw [coapOptionNibble]
  rcases Nibble.widths v with ⟨hsmall, hn, -⟩ | ⟨hlow, hhigh, hn, -⟩ | ⟨hlow, hn, -⟩
  · rw [hn, if_pos hsmall]
  · rw [hn, if_neg (by omega), if_pos (by omega)]
  · rw [hn, if_neg (by omega), if_neg (by omega), if_pos hv]

theorem lengthBytes_short (h : size < 269) : lengthBytes size = Nibble.extension size := if_pos h

theorem lengthBytes_long (h : 269 ≤ size) :
    lengthBytes size = [UInt8.ofNat (size / 256), UInt8.ofNat (size - 269)] :=
    if_neg (Nat.not_lt.2 h)

theorem lengthBytes_length : (lengthBytes size).length = (Nibble.extension size).length := by
  rcases Nat.lt_or_ge size 269 with h | h
  · rw [lengthBytes_short h]
  · rcases Nibble.widths size with ⟨hsmall, -⟩ | ⟨-, hhigh, -⟩ | ⟨-, -, he⟩
    · omega
    · omega
    · simp [lengthBytes_long h, he]

theorem buildOption_eq (hbase : base ≤ o.num.toNat) (hlen : o.buf.length ≤ Nibble.limit) :
    buildOption x base o =
      UInt8.ofNat (Nibble.nibble (o.num.toNat - base) * 16 + Nibble.nibble o.buf.length) ::
        (Nibble.extension (o.num.toNat - base) ++ (lengthBytes o.buf.length ++ o.buf)) := by
  have hnum := o.num.toNat_lt
  have hnibble := Nibble.nibble_lt o.buf.length
  have hdelta : (o.num.toNat + 2 ^ 32 - base) % 2 ^ 32 = o.num.toNat - base := by omega
  unfold buildOption
  dsimp only
  rw [hdelta, coapOptionNibble_eq (by unfold Nibble.limit; omega), coapOptionNibble_eq hlen,
    ← Nat.shiftLeft_add_eq_or_of_lt (by omega), Nat.shiftLeft_eq]
  refine congrArg (_ :: ·) (congrArg₂ (· ++ ·) ?_ (congrArg (· ++ o.buf) ?_))
  · rcases Nibble.widths (o.num.toNat - base) with ⟨hsmall, hn, he⟩ | ⟨-, -, hn, he⟩ | ⟨-, hn, he⟩
    · rw [hn, he, if_neg (by omega), if_neg (by omega)]
    · rw [hn, he, if_pos rfl]
    · rw [hn, he, if_neg (by decide), if_pos rfl]
  · rcases Nibble.widths o.buf.length with ⟨hsmall, hn, he⟩ | ⟨-, hhigh, hn, he⟩ | ⟨hlow, hn, -⟩
    · rw [hn, lengthBytes_short (by omega), he, if_neg (by omega), if_neg (by omega)]
    · rw [hn, lengthBytes_short hhigh, he, if_pos rfl]
    · rw [hn, lengthBytes_long hlow, if_neg (by decide), if_pos rfl]

theorem buildOption_length (hbase : base ≤ o.num.toNat) (hlen : o.buf.length ≤ Nibble.limit) :
    (buildOption x base o).length = (encodeOption (o.num.toNat - base, o.buf)).length := by
  rw [buildOption_eq hbase hlen, encodeOption, length_cons, length_cons, length_append,
    length_append, length_append, length_append, lengthBytes_length]

theorem optionBytes_length (hsorted : (base :: options.map fun o => o.num.toNat).Pairwise (· ≤ ·))
    (hlen : ∀ o ∈ options, o.buf.length ≤ Nibble.limit) :
    (optionBytes junk options base place).length =
      ((distances base (options.map CoapOption.numbered)).flatMap encodeOption).length := by
  induction options generalizing base place with
  | nil => rfl
  | cons o options ih =>
    obtain ⟨hbase, hrest⟩ := pairwise_cons.1 hsorted
    rw [optionBytes, length_append, ih hrest (forall_mem_cons.1 hlen).2,
      buildOption_length (hbase _ mem_cons_self) (hlen o mem_cons_self), map_cons, distances,
      flatMap_cons, length_append]
    rfl

theorem pairwise_zero_cons (l : List Nat) (h : l.Pairwise (· ≤ ·)) : (0 :: l).Pairwise (· ≤ ·) :=
  .cons (fun _ _ => Nat.zero_le _) h

/-- `coap_build` stays inside of its buffer, and refuses one that is too small. -/
def Respects (junk : Nat → Nat) (n : Nat) (pkt : CoapPacket Bytes) : Prop :=
  (coapBuild junk n pkt).out.length ≤ n ∧
    (pkt.Tokened → Encodable pkt.options → n < pkt.encodedLength →
      (coapBuild junk n pkt).rc = some .bufferTooSmall)

theorem respects_of_fits {junk : Nat → Nat} (htok : pkt.Tokened)
    (hfits : 4 + pkt.hdr.tkl.toNat + (pkt.optionText junk).length ≤ n) : Respects junk n pkt := by
  rw [Respects, coapBuild_fits htok hfits]
  generalize hout : pkt.start ++ pkt.optionText junk = out
  have hlen : out.length = 4 + pkt.hdr.tkl.toNat + (pkt.optionText junk).length := by
    rw [← hout, length_append, htok.start_length]
  have hneeds (h : Encodable pkt.options) : pkt.encodedLength =
    out.length + (encodePayload pkt.payload).length := by
    rw [CoapPacket.encodedLength, hlen, CoapPacket.optionText,
      optionBytes_length (pairwise_zero_cons _ h.sorted) h.lengths]
    rfl
  unfold buildPayload
  split
  · rename_i hpayload
    split
    · exact ⟨by dsimp only; omega, fun _ _ _ => rfl⟩
    · refine ⟨?_, fun _ hencodable hlong => ?_⟩
      · dsimp only
        rw [length_append, length_cons]
        omega
      · rw [hneeds hencodable, encodePayload, if_neg (length_pos_iff.1 hpayload),
          length_cons] at hlong
        omega
  · rename_i hpayload
    have hnil : pkt.payload = [] := length_eq_zero_iff.1 (by omega)
    refine ⟨by dsimp only; omega, fun _ hencodable hlong => ?_⟩
    rw [hneeds hencodable, encodePayload, if_pos hnil, length_nil] at hlong
    omega

/-- It does exactly when the options fit, or when it does not come to them. -/
theorem build_respects_iff (junk : Nat → Nat) (n : Nat) (pkt : CoapPacket Bytes) :
    Respects junk n pkt ↔
    n < 4 + pkt.hdr.tkl.toNat ∨ ¬pkt.Tokened ∨
    4 + pkt.hdr.tkl.toNat + (pkt.optionText junk).length ≤ n := by
  by_cases hroom : n < 4 + pkt.hdr.tkl.toNat
  · have hbuild : coapBuild junk n pkt = ⟨some .bufferTooSmall, [], n⟩ := by
      rw [coapBuild]
      exact if_pos hroom
    rw [Respects, hbuild]
    exact ⟨fun _ => .inl hroom, fun _ => ⟨Nat.zero_le n, fun _ _ _ => rfl⟩⟩
  · by_cases htok : pkt.Tokened
    · by_cases hfits : 4 + pkt.hdr.tkl.toNat + (pkt.optionText junk).length ≤ n
      · exact ⟨fun _ => .inr (.inr hfits), fun _ => respects_of_fits htok hfits⟩
      · have hexceeds := coapBuild_exceeds (Nat.not_lt.1 hroom) htok (Nat.not_le.1 hfits)
        refine ⟨fun h => absurd h.1 (Nat.not_le.2 hexceeds), fun h => ?_⟩
        rcases h with h | h | h
        · exact absurd h hroom
        · exact absurd htok h
        · exact absurd h hfits
    · have hbuild : coapBuild junk n pkt = ⟨some .unsupported, headerBytes pkt.hdr, n⟩ := by
        rw [coapBuild, if_neg hroom]
        exact if_pos (Classical.not_imp.1 htok)
      rw [Respects, hbuild]
      refine ⟨fun _ => .inr (.inl htok), fun _ => ⟨?_, fun h => absurd h htok⟩⟩
      have := headerBytes_length pkt.hdr
      dsimp only
      omega

def longOption : CoapPacket Bytes :=
  ⟨⟨1, 0, 0, 1, (0, 0)⟩, [], 1, [⟨11, [97, 98, 99, 100, 101, 102, 103, 104, 105, 106]⟩], []⟩

/-- Eleven bytes are written behind a buffer of four. -/
theorem option_overruns_buffer : ¬Respects (fun _ => 0) 4 longOption :=
  fun h => absurd h.1 (by decide)

structure CoapPacket.Proper (pkt : CoapPacket Bytes) : Prop where
  ver : pkt.hdr.ver = 1
  t : pkt.hdr.t < 4
  tkl : pkt.hdr.tkl ≤ 8
  tok : pkt.tok.length = pkt.hdr.tkl.toNat
  numopts : pkt.numopts ≤ maxOpt
  opts : pkt.opts.length = maxOpt
  encodable : Encodable pkt.options

structure Returns (pkt : CoapPacket Bytes) (buf : Bytes) (pkt' : CoapPacket Slice) : Prop where
  hdr : pkt'.hdr = pkt.hdr
  tok : pkt'.tok.data buf = pkt.tok
  numopts : pkt'.numopts = pkt.numopts
  options : pkt'.options.map (CoapOption.read buf) = pkt.options.map CoapOption.numbered
  payload : pkt'.payload.data buf = pkt.payload

def CoapPacket.message (pkt : CoapPacket Bytes) : Message :=
  ⟨pkt.hdr.t.toNat, pkt.hdr.code, pkt.hdr.id, pkt.tok, pkt.distances, pkt.payload⟩

section
variable {pkt : CoapPacket Bytes}

theorem optionBytes_append (junk : Nat → Nat)
    (hsorted : (base :: (good ++ later).map fun o => o.num.toNat).Pairwise (· ≤ ·))
    (hshort : ∀ o ∈ good, o.buf.length < 269) (place : Nat) :
    ∃ base' place', (base' :: later.map fun o => o.num.toNat).Pairwise (· ≤ ·) ∧
      optionBytes junk (good ++ later) base place =
        (distances base (good.map CoapOption.numbered)).flatMap encodeOption ++ optionBytes junk
        later base' place' := by
  induction good generalizing base place with
  | nil => exact ⟨base, place, hsorted, rfl⟩
  | cons o good ih =>
    obtain ⟨hbase, hrest⟩ := pairwise_cons.1 hsorted
    obtain ⟨base', place', hsorted', heq⟩ := ih hrest (forall_mem_cons.1 hshort).2
      (place + (buildOption (junk place) base o).length)
    refine ⟨base', place', hsorted', ?_⟩
    have hlen := hshort o mem_cons_self
    rw [cons_append, optionBytes, heq, buildOption_eq (hbase _ mem_cons_self)
      (by unfold Nibble.limit; omega), lengthBytes_short hlen,
      map_cons, distances, flatMap_cons, append_assoc]
    rfl

theorem headerByte_eq {t tkl : UInt8} (ht : t < 4) (htkl : tkl ≤ 8) :
    (((1 : UInt8) &&& 0x03) <<< 6 ||| ((t &&& 0x03) <<< 4) ||| (tkl &&& 0x0F)) = UInt8.ofNat
    (64 + t.toNat * 16 + tkl.toNat) := by
  have hall : ∀ a : Fin 4, ∀ b :
    Fin 9, (((1 : UInt8) &&& 0x03) <<< 6 ||| ((UInt8.ofNat a &&& 0x03) <<< 4) |||
      (UInt8.ofNat b &&& 0x0F)) = UInt8.ofNat (64 + a * 16 + b) := by decide
  have := hall ⟨t.toNat, UInt8.lt_iff_toNat_lt.1 ht⟩
    ⟨tkl.toNat, Nat.lt_succ_of_le (UInt8.le_iff_toNat_le.1 htkl)⟩
  rwa [UInt8.ofNat_toNat, UInt8.ofNat_toNat] at this

theorem CoapPacket.Proper.tokened (h : pkt.Proper) : pkt.Tokened := fun _ => h.tok.symm

theorem CoapPacket.Proper.options_length (h : pkt.Proper) : pkt.options.length = pkt.numopts :=
  length_take_of_le (h.numopts.trans_eq h.opts.symm)

theorem distances_fit {options : List (CoapOption Bytes)}
    (hsorted : (0 :: options.map fun o => o.num.toNat).Pairwise (· ≤ ·)) (hshort : ∀ o ∈ options,
    o.buf.length < 269) :
    numbered 0 (distances 0 (options.map CoapOption.numbered)) = options.map CoapOption.numbered ∧
      (∀ x ∈ numbered 0 (distances 0 (options.map CoapOption.numbered)), x.1 < 256) ∧
      ∀ x ∈ distances 0 (options.map CoapOption.numbered), x.2.length < 2 ^ 16 := by
  have hnumbers : numbered 0 (distances 0 (options.map CoapOption.numbered)) =
    options.map CoapOption.numbered := by
    refine numbered_distances ?_
    rw [map_map]
    exact hsorted
  refine ⟨hnumbers, ?_, fun x hx => ?_⟩
  · rw [hnumbers, forall_mem_map]
    exact fun o _ => o.num.toNat_lt
  · obtain ⟨o', ho', -, heq⟩ := distances_mem hx
    obtain ⟨o, ho, rfl⟩ := mem_map.1 ho'
    have : x.2.length < 269 := heq ▸ hshort o ho
    omega

theorem returns_of_short (h : pkt.Proper) (hempty : pkt₀.opts.length = maxOpt)
    (hbuild : (coapBuild junk n pkt).rc = none) (hshort : ∀ o ∈ pkt.options, o.buf.length < 269) :
    ∃ pkt', coapParse pkt₀ (coapBuild junk n pkt).out = .ok pkt' ∧
    Returns pkt (coapBuild junk n pkt).out pkt' := by
  have hsorted := pairwise_zero_cons _ h.encodable.sorted
  obtain ⟨hnumbers, hnums, hlengths⟩ := distances_fit hsorted hshort
  have htext : pkt.optionText junk = pkt.distances.flatMap encodeOption := by
    obtain ⟨_, _, -, heq⟩ := optionBytes_append junk
      (show (0 :: (pkt.options ++ []).map fun o : CoapOption Bytes => o.num.toNat).Pairwise
        (· ≤ ·) by rwa [append_nil]) hshort
      (4 + pkt.hdr.tkl.toNat)
    rwa [append_nil, optionBytes, append_nil] at heq
  have hout : (coapBuild junk n pkt).out = pkt.message.encode := by
    rw [(coapBuild_ok h.tokened hbuild).1, CoapPacket.start, headerBytes, h.ver,
      headerByte_eq h.t h.tkl, ← h.tok, take_length, htext, append_assoc]
    rfl
  have hvalid : pkt.message.Valid := by
    refine ⟨UInt8.lt_iff_toNat_lt.1 h.t, h.tok.trans_le (UInt8.le_iff_toNat_le.1 h.tkl),
      fun o ho => ?_⟩
    obtain ⟨o', ho', hle, heq⟩ := distances_mem ho
    obtain ⟨o'', ho'', rfl⟩ := mem_map.1 ho'
    have hnum : o''.numbered.1 < 256 := o''.num.toNat_lt
    refine ⟨?_, heq ▸ h.encodable.lengths o'' ho''⟩
    unfold Nibble.limit
    omega
  have hfits : pkt.message.Fits := by
    refine ⟨?_, hnums, hlengths⟩
    rw [CoapPacket.message, CoapPacket.distances, distances_length, length_map, h.options_length]
    exact h.numopts
  obtain ⟨pkt', hparse, hreports⟩ := coapParse_message hvalid hfits hempty
  rw [hout]
  refine ⟨pkt', hparse, ?_, hreports.token, ?_, hreports.options.trans hnumbers, hreports.payload⟩
  · have htkl : pkt'.hdr.tkl = pkt.hdr.tkl := UInt8.toNat_inj.1 (hreports.tkl.trans h.tok)
    have ht : pkt'.hdr.t = pkt.hdr.t := UInt8.toNat_inj.1 hreports.t
    have hver := hreports.ver.trans h.ver.symm
    have hcode := hreports.code
    have hid := hreports.id
    generalize pkt'.hdr = hdr at htkl ht hver hcode hid ⊢
    obtain ⟨ver, t, tkl, code, id⟩ := hdr
    dsimp only at htkl ht hver hcode hid
    rw [htkl, ht, hver, hcode, hid]
    rfl
  · rw [hreports.numopts, CoapPacket.message, CoapPacket.distances, distances_length, length_map,
      h.options_length]

/-- A length of two extension bytes is read as another. -/
theorem parseOption_long (hbase : base ≤ o.num.toNat) (hlong : 269 ≤ o.buf.length)
    (hlen : o.buf.length ≤ Nibble.limit) (hbuf : buf = pre ++ (buildOption x base o ++ rest))
    (h : parseOption buf delta pre.length (buf.length - pre.length) = .ok r) :
    r.1.buf.len ≠ o.buf.length := by
  have hnum := o.num.toNat_lt
  have hnibble : Nibble.nibble o.buf.length = 14 := by
    rcases Nibble.widths o.buf.length with ⟨hsmall, -⟩ | ⟨-, hhigh, -⟩ | ⟨-, hn, -⟩
    · omega
    · omega
    · exact hn
  rw [buildOption_eq hbase hlen, lengthBytes_long hlong, hnibble] at hbuf
  have hfirst : buf = pre ++ (UInt8.ofNat (Nibble.nibble (o.num.toNat - base) * 16 + 14) ::
      (Nibble.extension (o.num.toNat - base) ++
        (UInt8.ofNat (o.buf.length / 256) :: UInt8.ofNat
          (o.buf.length - 269) :: (o.buf ++ rest)))) := by
    rw [hbuf, cons_append, append_assoc]
    rfl
  generalize hhead : pre ++ UInt8.ofNat (Nibble.nibble (o.num.toNat - base) * 16 + 14) ::
    Nibble.extension (o.num.toNat - base) = head
  have hsecond : buf = head ++ UInt8.ofNat (o.buf.length / 256) :: UInt8.ofNat
    (o.buf.length - 269) :: (o.buf ++ rest) := by
    rw [hfirst, ← hhead, append_assoc]
    rfl
  have hheadLen : pre.length + (Nibble.extension (o.num.toNat - base)).length + 1 =
    head.length := by
    rw [← hhead, length_append, length_cons]
    omega
  have hlength := congrArg List.length hsecond
  rw [length_append, length_cons, length_cons] at hlength
  have hlimit : o.num.toNat - base ≤ Nibble.limit := by
    unfold Nibble.limit
    omega
  rw [parseOption_delta hfirst hlimit (by decide)] at h
  dsimp only at h
  rw [extended_two hsecond hheadLen (by omega), ok_bind] at h
  dsimp only at h
  split at h
  · cases h
  · cases h
    unfold Nibble.limit at hlen
    dsimp only
    rw [UInt8.toNat_ofNat', UInt8.toNat_ofNat']
    omega

theorem optionsLoop_long (hbase : base ≤ o.num.toNat)
    (hlong : 269 ≤ o.buf.length) (hlen : o.buf.length ≤ Nibble.limit)
    (hbuf : buf = pre ++ (buildOption x base o ++ rest))
    (hroom : optionIndex + (left + 1) ≤ opts.length)
    (h : optionsLoop buf (left + 1) opts optionIndex delta pre.length = .ok r) :
    ∃ o', (r.1.take r.2.1)[optionIndex]? = some o' ∧ o'.buf.len ≠ o.buf.length := by
  obtain ⟨b, tail, htext, hb⟩ : ∃ b tail, buildOption x base o ++ rest = b :: tail ∧ b ≠ 0xFF := by
    rw [buildOption_eq hbase hlen]
    exact ⟨_, _, rfl, optionByte_ne _ _⟩
  have hlt : pre.length < buf.length := by
    rw [hbuf, htext, length_append, length_cons]
    omega
  have hread : byteAt buf pre.length = .ok b := by rw [hbuf, htext, byteAt_append]
  have hindex : optionIndex < opts.length := by omega
  rw [optionsLoop, if_pos hlt, hread, ok_bind, if_neg hb] at h
  obtain ⟨⟨o', p', delta'⟩, hparse, h⟩ := bind_eq_ok.1 h
  dsimp only at h
  rw [storeOption_eq hindex, ok_bind] at h
  obtain ⟨hkept, hlow⟩ := optionsLoop_kept (by rw [length_set]; omega) h
  refine ⟨o', ?_, parseOption_long hbase hlong hlen hbuf hparse⟩
  rw [getElem?_take_of_lt (by omega), ← getElem?_take_of_lt (Nat.lt_succ_self optionIndex), hkept,
    take_stored hindex, getElem?_append_right (length_take_le _ _),
      length_take_of_le (Nat.le_of_lt hindex),
    Nat.sub_self]
  rfl

theorem short_of_returns (h : pkt.Proper) (hempty : pkt₀.opts.length = maxOpt)
    (hbuild : (coapBuild junk n pkt).rc = none)
    (hparse : coapParse pkt₀ (coapBuild junk n pkt).out = .ok pkt')
    (hreturns : Returns pkt (coapBuild junk n pkt).out pkt') : ∀ o ∈ pkt.options,
    o.buf.length < 269 := by
  by_contra hexists
  -- The first long value is stored with another length, and later rounds leave it there.
  cases hfind : pkt.options.find? fun o => decide (269 ≤ o.buf.length) with
  | none =>
    refine hexists fun o ho => ?_
    have := find?_eq_none.1 hfind o ho
    simpa using this
  | some o =>
    obtain ⟨hlong, good, more, hoptions, hgood⟩ := find?_eq_some_iff_append.1 hfind
    have hlong : 269 ≤ o.buf.length := of_decide_eq_true hlong
    have hshort (x : CoapOption Bytes) (hx : x ∈ good) :
      x.buf.length < 269 := by simpa using hgood x hx
    have hmem : o ∈ pkt.options := by
      rw [hoptions]
      exact mem_append_right _ mem_cons_self
    have hlen := h.encodable.lengths o hmem
    have hcount : good.length + (more.length + 1) ≤ maxOpt := by
      have := h.numopts
      rw [← h.options_length, hoptions, length_append, length_cons] at this
      exact this
    have hsorted := pairwise_zero_cons _ h.encodable.sorted
    rw [hoptions] at hsorted
    obtain ⟨base', place', hsorted', htext⟩ :=
      optionBytes_append junk hsorted hshort (4 + pkt.hdr.tkl.toNat)
    have hbase : base' ≤ o.num.toNat := (pairwise_cons.1 hsorted').1 _ mem_cons_self
    rw [← hoptions, optionBytes] at htext
    have hout := (coapBuild_ok h.tokened hbuild).1
    have hstart := h.tokened.start_length
    generalize pkt.start = pre at hout hstart
    generalize (coapBuild junk n pkt).out = buf at hout hparse hreturns
    rw [map_append, ← cons_append] at hsorted
    obtain ⟨-, hfit, hlengths⟩ := distances_fit (pairwise_append.1 hsorted).1 hshort
    generalize hlist : distances 0 (good.map CoapOption.numbered) = options at htext hfit hlengths
    have hcountOptions : options.length = good.length := by
      rw [← hlist, distances_length, length_map]
    generalize hrest : optionBytes junk more o.num.toNat
      (place' + (buildOption (junk place') base' o).length) ++ encodePayload pkt.payload = rest
    have hbuf : buf = pre ++ (options.flatMap encodeOption ++
      (buildOption (junk place') base' o ++ rest)) := by
      rw [hout, CoapPacket.optionText, htext, ← hrest, append_assoc, append_assoc]
    have hbuf' : buf = (pre ++ options.flatMap encodeOption) ++
      (buildOption (junk place') base' o ++ rest) := by
      rw [hbuf, append_assoc]
    obtain ⟨left, hleft⟩ : ∃ left, maxOpt = good.length + (left + 1) :=
      ⟨maxOpt - good.length - 1, by omega⟩
    obtain ⟨p, hloop⟩ := coapParse_loop hparse
    obtain ⟨opts, _, delta, -, hoptsLen, -, heq⟩ :=
      optionsLoop_append (left + 1) 0 pkt₀.opts hbuf hfit hlengths (by omega)
    rw [hreturns.hdr, ← hstart, hleft, ← hcountOptions, heq, ← length_append, Nat.zero_add] at hloop
    obtain ⟨o', hget, hdiff⟩ := optionsLoop_long hbase hlong hlen hbuf' (by omega) hloop
    have hdata : o'.buf.data buf = o.buf := by
      have hread := congrArg (·[options.length]?) hreturns.options
      rw [getElem?_map, CoapPacket.options, hget, getElem?_map, hoptions, hcountOptions,
        getElem?_append_right le_rfl, Nat.sub_self] at hread
      exact congrArg Prod.snd (Option.some.inj hread)
    have hsafe := coapParse_tiles buf hempty
    rw [hparse] at hsafe
    obtain ⟨-, -, -, htiles⟩ := hsafe
    have hslice : o'.buf ∈ pkt'.slices := mem_cons_of_mem _ (mem_append_left _
      (mem_map_of_mem (mem_of_getElem? hget)))
    rcases htiles.within hslice with hnull | ⟨i, hi, -, hend⟩
    · rw [hnull, Slice.data_null] at hdata
      rw [← hdata, length_nil] at hlong
      omega
    · exact hdiff ((Slice.data_length hi hend).symm.trans (congrArg List.length hdata))

end

/-- What `coap_build` writes is parsed to the packet it was built from exactly when no value of an
option is longer than 268 bytes. -/
theorem build_parse_iff {junk : Nat → Nat} {n : Nat} {pkt : CoapPacket Bytes}
    {pkt₀ : CoapPacket Slice} (h : pkt.Proper)
    (hempty : pkt₀.opts.length = maxOpt) (hbuild : (coapBuild junk n pkt).rc = none) :
    (∃ pkt', coapParse pkt₀ ((coapBuild junk n pkt).out.take (coapBuild junk n pkt).buflen) =
    .ok pkt' ∧ Returns pkt ((coapBuild junk n pkt).out.take (coapBuild junk n pkt).buflen) pkt') ↔
      ∀ o ∈ pkt.options, o.buf.length < 269 := by
  rw [(coapBuild_ok h.tokened hbuild).2, take_length]
  constructor
  · rintro ⟨pkt', hparse, hreturns⟩
    exact short_of_returns h hempty hbuild hparse hreturns
  · exact returns_of_short h hempty hbuild

def optionPacket (size : Nat) : CoapPacket Bytes :=
  ⟨⟨1, 0, 0, 1, (0, 0)⟩, [], 1, ⟨11, replicate size 97⟩ :: replicate 15 ⟨0, []⟩, []⟩

theorem optionPacket_proper (h : size ≤ Nibble.limit) : (optionPacket size).Proper := by
  refine ⟨rfl, show (0 : UInt8) < 4 by decide, show (0 : UInt8) ≤ 8 by decide, rfl,
    show 1 ≤ maxOpt by decide, rfl, ?_, ?_⟩
  · exact pairwise_singleton _ _
  · exact forall_mem_singleton.2 (length_replicate.trans_le h)

theorem build_parse_iff_short : ∃ pkt', coapParse emptyPacket
    ((coapBuild (fun _ => 0) 1000 (optionPacket 20)).out.take
    (coapBuild (fun _ => 0) 1000 (optionPacket 20)).buflen) =
      .ok pkt' ∧ Returns (optionPacket 20) ((coapBuild (fun _ => 0) 1000 (optionPacket 20)).out.take
      (coapBuild (fun _ => 0) 1000 (optionPacket 20)).buflen) pkt' := by
  refine (build_parse_iff (optionPacket_proper (by decide)) rfl rfl).2 ?_
  exact forall_mem_singleton.2 (by decide)

/-- An option of 269 bytes does not come back. -/
theorem long_value_is_misread : (optionPacket 269).Proper ∧
    (coapBuild (fun _ => 0) 1000 (optionPacket 269)).rc = none ∧
    (coapBuild (fun _ => 0) 1000 (optionPacket 269)).out.length ≤ 1000 ∧
    coapParse emptyPacket ((coapBuild (fun _ => 0) 1000 (optionPacket 269)).out.take
      (coapBuild (fun _ => 0) 1000 (optionPacket 269)).buflen) = .error (.code .optionTooBig) :=
  ⟨optionPacket_proper (by decide), rfl, by decide +kernel, by decide +kernel⟩

end SwApi.Coap
