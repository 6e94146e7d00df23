import SwApi.Coap.Model

/-! `coap_parse` stays inside the message and the array of options, and reports a message whose
option numbers fit the packet as it is. -/
namespace SwApi.Coap
open Library List

variable {options : List (CoapOption Slice)}

/-- The computation is defined, and `post` holds of what it delivers. -/
def Safe (post : α → Prop) : Result α → Prop
  | .ok a => post a
  | .error e => e ≠ .undefined

theorem Safe.bind (h : Safe post r) (hf : ∀ a, post a → Safe post' (f a)) :
    Safe post' (r >>= f) := by
  cases r with
  | ok a => exact hf a h
  | error e => exact h

theorem Safe.mono {post' : α → Prop} (h : Safe post r) (himp : ∀ a, post a → post' a) :
    Safe post' r := by
  cases r with
  | ok a => exact himp a h
  | error e => exact h

theorem safe_fail : Safe post (fail e) := nofun

theorem safe_byteAt (h : i < buf.length) : Safe (fun _ => True) (byteAt buf i) := by
  rw [byteAt, getElem?_eq_getElem h]
  trivial

theorem extended_safe (hend : start + buflen = buf.length)
    (hp : p + 1 = start + headlen) (hroom : headlen ≤ buflen) (hbits : bits < 16) :
    Safe (fun r => r.1 < 2 ^ 16 ∧ r.2.1 + 1 = start + r.2.2 ∧ headlen ≤ r.2.2 ∧ r.2.2 ≤ buflen)
      (extended buf buflen invalid bits p headlen) := by
  unfold extended
  split
  · split
    · exact safe_fail
    · refine (safe_byteAt (by omega)).bind fun b _ => ?_
      have := b.toNat_lt
      dsimp only [Safe]
      exact ⟨by omega, by omega, by omega, by omega⟩
  · split
    · split
      · exact safe_fail
      · refine (safe_byteAt (by omega)).bind fun b _ => (safe_byteAt (by omega)).bind fun b' _ => ?_
        dsimp only [Safe]
        exact ⟨Nat.mod_lt _ (by decide), by omega, by omega, by omega⟩
    · split
      · exact safe_fail
      · dsimp only [Safe]
        exact ⟨by omega, hp, le_rfl, hroom⟩

theorem parseOption_safe (hend : p + buflen = buf.length) :
    Safe (fun r => r.1.buf.len < 2 ^ 16 ∧ r.2.1 ≤ buf.length ∧ ∃ i, r.1.buf.p = some i ∧ p < i ∧
      i + r.1.buf.len = r.2.1) (parseOption buf runningDelta p buflen) := by
  unfold parseOption
  split
  · exact safe_fail
  · refine (safe_byteAt (by omega)).bind fun b _ => ?_
    have hhigh : ((b &&& 0xF0) >>> 4).toNat < 16 := by
      have := b.toNat_lt
      rw [Nibble.high_nibble]
      omega
    have hlow : (b &&& 0x0F).toNat < 16 := by
      rw [Nibble.low_nibble]
      exact Nat.mod_lt _ (by decide)
    refine (extended_safe hend rfl (by omega) hhigh).bind fun ⟨delta, q, headlen⟩ hdelta => ?_
    obtain ⟨-, hq, hheadlen, hroom⟩ := hdelta
    refine (extended_safe hend hq hroom hlow).bind fun ⟨len, q', headlen'⟩ hlen => ?_
    obtain ⟨hlen, hq', hheadlen', -⟩ := hlen
    dsimp only at *
    split
    · exact safe_fail
    · exact ⟨hlen, by dsimp only; omega, q' + 1, rfl, by omega, rfl⟩

theorem storeOption_eq (h : i < options.length) (o : CoapOption Slice) :
    storeOption options i o = .ok (options.set i o) := if_pos h

/-- What the loop delivers from `first` on: options one behind the other up to `last`, those before
as they were. -/
structure Filled (buf : Bytes) (lo first last : Nat) (options : List (CoapOption Slice))
    (r : List (CoapOption Slice) × Nat × Nat) : Prop where
  length : r.1.length = options.length
  kept : r.1.take first = options.take first
  low : first ≤ r.2.1
  high : r.2.1 ≤ last
  inside : r.2.2 ≤ buf.length
  short : ∀ o ∈ (r.1.take r.2.1).drop first, o.buf.len < 2 ^ 16
  tiles : Tiles lo ((r.1.take r.2.1).map CoapOption.buf) r.2.2

theorem take_stored (h : i < options.length) (o : CoapOption Slice) :
    (options.set i o).take (i + 1) = options.take i ++ [o] := by
  rw [take_succ_eq_append_getElem (by rw [length_set]; omega), take_set_of_le le_rfl,
    getElem_set_self]

theorem Filled.stop (hlast : first ≤ last)
    (hp : p ≤ buf.length) (htiles : Tiles lo ((options.take first).map CoapOption.buf) p) :
    Filled buf lo first last options (options, first, p) := by
  refine ⟨rfl, rfl, le_rfl, hlast, hp, fun o ho => ?_, htiles⟩
  rw [drop_eq_nil_of_le (length_take_le _ _)] at ho
  cases ho

theorem Filled.stored {lo first last : Nat} {o : CoapOption Slice}
    {r : List (CoapOption Slice) × Nat × Nat}
    (h : Filled buf lo (first + 1) last (options.set first o) r)
    (hfirst : first < options.length) (hshort : o.buf.len < 2 ^ 16) :
    Filled buf lo first last options r := by
  have hlow := h.low
  have hkept := h.kept
  rw [take_stored hfirst] at hkept
  have hlen : (options.take first).length = first := length_take_of_le (Nat.le_of_lt hfirst)
  have hget : (r.1.take r.2.1)[first]? = some o := by
    rw [getElem?_take_of_lt (by omega), ← getElem?_take_of_lt (Nat.lt_succ_self first), hkept]
    rw [getElem?_append_right (by omega), hlen, Nat.sub_self]
    rfl
  refine ⟨h.length.trans length_set, ?_, by omega, h.high, h.inside, ?_, h.tiles⟩
  · have := congrArg (List.take first) hkept
    rwa [take_take, Nat.min_eq_left (Nat.le_succ _), take_left' hlen] at this
  · rw [drop_eq_getElem?_toList_append, hget]
    exact forall_mem_append.2 ⟨forall_mem_singleton.2 hshort, h.short⟩

theorem optionsLoop_safe {lo left optionIndex delta p : Nat}
    (hroom : optionIndex + left ≤ options.length) (hp : p ≤ buf.length)
    (htiles : Tiles lo ((options.take optionIndex).map CoapOption.buf) p) :
    Safe (Filled buf lo optionIndex (optionIndex + left) options)
    (optionsLoop buf left options optionIndex delta p) := by
  induction left generalizing options optionIndex delta p with
  | zero => exact .stop le_rfl hp htiles
  | succ left ih =>
    have hstop : Filled buf lo optionIndex (optionIndex + (left + 1)) options
      (options, optionIndex, p) :=
      .stop (Nat.le_add_right _ _) hp htiles
    rw [optionsLoop]
    split
    · rename_i hlt
      refine (safe_byteAt hlt).bind fun b _ => ?_
      split
      · exact hstop
      · refine (parseOption_safe (by omega)).bind fun ⟨o, p', delta'⟩
          ⟨hlen, hp', i, hi, hpi, hend⟩ => ?_
        dsimp only at hlen hp' hi hend ⊢
        have hfirst : optionIndex < options.length := by omega
        have hbuf : o.buf = ⟨some i, o.buf.len⟩ := by rw [← hi]
        have htiles' :
          Tiles lo (((options.set optionIndex o).take (optionIndex + 1)).map CoapOption.buf)
            p' := by
          rw [take_stored hfirst, map_append, map_singleton, hbuf]
          exact htiles.append (.cons (Nat.le_of_lt hpi) (.nil (Nat.le_of_eq hend)))
        have hroom' : optionIndex + 1 + left ≤ (options.set optionIndex o).length := by
          rw [length_set]
          omega
        rw [storeOption_eq hfirst]
        have hrest := (ih hroom' hp' htiles' : Safe _ (optionsLoop buf left _ _ delta' p'))
        exact hrest.mono fun r hr =>
          (show optionIndex + 1 + left = optionIndex + (left + 1) by omega) ▸ hr.stored hfirst hlen
    · exact hstop

theorem optionsLoop_kept {left optionIndex delta p : Nat}
    {r : List (CoapOption Slice) × Nat × Nat} (hroom : optionIndex + left ≤ options.length)
    (h : optionsLoop buf left options optionIndex delta p = .ok r) :
    r.1.take optionIndex = options.take optionIndex ∧ optionIndex ≤ r.2.1 := by
  induction left generalizing options optionIndex delta p with
  | zero =>
    cases h
    exact ⟨rfl, le_rfl⟩
  | succ left ih =>
    rw [optionsLoop] at h
    split at h
    · obtain ⟨b, -, h⟩ := bind_eq_ok.1 h
      split at h
      · cases h
        exact ⟨rfl, le_rfl⟩
      · obtain ⟨⟨o, p', delta'⟩, -, h⟩ := bind_eq_ok.1 h
        dsimp only at h
        rw [storeOption_eq (by omega), ok_bind] at h
        obtain ⟨hkept, hlow⟩ := ih (by rw [length_set]; omega) h
        have htake := congrArg (List.take optionIndex) hkept
        rw [take_take, Nat.min_eq_left (Nat.le_succ _), take_take, Nat.min_eq_left (Nat.le_succ _),
          take_set_of_le le_rfl] at htake
        exact ⟨htake, by omega⟩
    · cases h
      exact ⟨rfl, le_rfl⟩

def CoapPacket.slices (pkt : CoapPacket Slice) : List Slice :=
  pkt.tok :: (pkt.options.map CoapOption.buf ++ [pkt.payload])

theorem parseHeader_safe : Safe (fun _ => 4 ≤ buf.length) (parseHeader buf) := by
  unfold parseHeader
  split
  · exact safe_fail
  · rename_i hlen
    refine (safe_byteAt (by omega)).bind fun b _ => ?_
    dsimp only
    split
    · exact safe_fail
    · refine (safe_byteAt (by omega)).bind fun code _ => (safe_byteAt (by omega)).bind fun id0 _ =>
        (safe_byteAt (by omega)).bind fun id1 _ => ?_
      exact Nat.not_lt.1 hlen

theorem parseToken_safe : Safe (fun tok => Tiles 4 [tok] (4 + hdr.tkl.toNat))
    (parseToken hdr buf) := by
  unfold parseToken
  split
  · exact .null (.nil (Nat.le_add_right _ _))
  · split
    · split
      · exact safe_fail
      · exact .cons le_rfl (.nil le_rfl)
    · exact safe_fail

theorem parsePayload_safe (hp : p ≤ buf.length) :
    Safe (fun payload => Tiles p [payload] buf.length) (parsePayload buf p) := by
  unfold parsePayload
  split
  · refine (safe_byteAt (by omega)).bind fun b _ => ?_
    dsimp only [Safe]
    split
    · exact .cons (Nat.le_succ p) (.nil (by omega))
    · exact .null (.nil hp)
  · exact .null (.nil hp)

theorem coapParse_tiles (buf : Bytes) (hopts : pkt.opts.length = maxOpt) :
    Safe (fun pkt' => pkt'.opts.length = maxOpt ∧ pkt'.numopts ≤ maxOpt ∧
    (∀ o ∈ pkt'.options, o.buf.len < 2 ^ 16) ∧
      Tiles 4 pkt'.slices buf.length) (coapParse pkt buf) := by
  unfold coapParse
  refine parseHeader_safe.bind fun hdr hlen => parseToken_safe.bind fun tok htok => ?_
  dsimp only
  split
  · exact safe_fail
  · rename_i hp
    have hroom : 0 + maxOpt ≤ pkt.opts.length := by rw [hopts, Nat.zero_add]
    have hnone : Tiles (4 + hdr.tkl.toNat) ((pkt.opts.take 0).map CoapOption.buf)
      (4 + hdr.tkl.toNat) := .nil le_rfl
    refine (optionsLoop_safe hroom (by omega) hnone).bind fun ⟨opts, numopts, p⟩ hfilled => ?_
    refine (parsePayload_safe hfilled.inside).bind fun payload hpayload => ?_
    have hhigh : numopts ≤ 0 + maxOpt := hfilled.high
    rw [Nat.zero_add] at hhigh
    refine ⟨hfilled.length.trans hopts, hhigh, hfilled.short, ?_⟩
    exact htok.append (hfilled.tiles.append hpayload)

/-- For any bytes `coap_parse` reads nothing outside of them and stores nothing outside of `opts`;
what it delivers points to parts of them behind the header that do not overlap. -/
theorem parse_safe (pkt : CoapPacket Slice) (buf : Bytes) (hopts : pkt.opts.length = maxOpt) :
    Safe (fun pkt' => pkt'.opts.length = maxOpt ∧ pkt'.numopts ≤ maxOpt ∧
        (∀ s ∈ pkt'.slices, s = .null ∨ ∃ i, s.p = some i ∧ 4 ≤ i ∧ i + s.len ≤ buf.length) ∧
        pkt'.slices.Pairwise fun a b => ∀ k, ¬(a.Covers k ∧ b.Covers k)) (coapParse pkt buf) := by
  refine (coapParse_tiles buf hopts).mono fun pkt' h => ?_
  obtain ⟨hlen, hnum, -, htiles⟩ := h
  exact ⟨hlen, hnum, fun s hs => htiles.within hs, htiles.apart⟩

theorem byteAt_append (pre : Bytes) (b : UInt8) (rest : Bytes) :
    byteAt (pre ++ b :: rest) pre.length = .ok b := by
  rw [byteAt, getElem?_append_right le_rfl, Nat.sub_self]
  rfl

theorem byteAt_second : byteAt (pre ++ b :: b' :: rest) (pre.length + 1) = .ok b' := by
  have := byteAt_append (pre ++ [b]) b' rest
  rwa [append_assoc, length_append] at this

theorem extended_two (hbuf : buf = pre ++ b :: b' :: rest)
    (hp : p + 1 = pre.length) (hroom : headlen + 2 ≤ buflen) :
    extended buf buflen invalid 14 p headlen = .ok ((b.toNat * 256 + b'.toNat + 269) % 2 ^ 16,
    p + 2, headlen + 2) := by
  rw [extended, if_neg (by decide), if_pos rfl, if_neg (by omega), hbuf,
    show p + 2 = p + 1 + 1 from rfl, hp, byteAt_append, byteAt_second]
  rfl

theorem extended_eq (hbuf : buf = pre ++ (Nibble.extension v ++ rest))
    (hp : p + 1 = pre.length) (hv : v ≤ Nibble.limit)
    (hroom : headlen + (Nibble.extension v).length ≤ buflen) :
    extended buf buflen invalid (Nibble.nibble v) p headlen =
      .ok (v % 2 ^ 16, p + (Nibble.extension v).length, headlen + (Nibble.extension v).length) := by
  unfold Nibble.limit at hv
  rcases Nibble.widths v with ⟨hsmall, hn, he⟩ | ⟨hlow, hhigh, hn, he⟩ | ⟨hlow, hn, he⟩
  · rw [hn, he, extended, if_neg (by omega), if_neg (by omega), if_neg (by omega),
      Nat.mod_eq_of_lt (by omega)]
    rfl
  · rw [he] at hbuf hroom
    have hroom' : ¬buflen < headlen + 1 := Nat.not_lt.2 hroom
    rw [hn, he, extended, if_pos rfl, if_neg hroom', hbuf, hp, singleton_append, byteAt_append]
    dsimp only [bind, Except.bind]
    rw [Nibble.toNat_ofNat_of_lt (by omega), Nat.sub_add_cancel hlow, Nat.mod_eq_of_lt (by omega),
      ← hp]
    rfl
  · rw [he] at hbuf hroom
    rw [hn, he, extended_two hbuf hp hroom, Nibble.toNat_ofNat_of_lt (by omega), UInt8.toNat_ofNat',
      show (v - 269) / 256 * 256 + (v - 269) % 2 ^ 8 + 269 = v by omega]
    rfl

theorem parseOption_delta
    (hbuf : buf =
    pre ++ (UInt8.ofNat (Nibble.nibble delta * 16 + len) :: (Nibble.extension delta ++ rest)))
    (hdelta : delta ≤ Nibble.limit) (hlen : len < 16) :
    parseOption buf runningDelta pre.length (buf.length - pre.length) = (do
      let size := (Nibble.extension delta).length
      let (len, q, _) ← extended buf (buf.length - pre.length) .optionLenInvalid len
        (pre.length + size) (1 + size)
      if buf.length < q + 1 + len then fail .optionTooBig
      else .ok (⟨UInt8.ofNat (delta % 2 ^ 16 + runningDelta), ⟨some (q + 1), len⟩⟩, q + 1 + len,
        (runningDelta + delta % 2 ^ 16) % 2 ^ 16)) := by
  have hnibble := Nibble.nibble_lt delta
  have hlength := congrArg List.length hbuf
  rw [length_append, length_cons, length_append] at hlength
  have hbyte : (UInt8.ofNat (Nibble.nibble delta * 16 + len)).toNat = Nibble.nibble delta * 16 +
    len :=
    Nibble.toNat_ofNat_of_lt (by omega)
  have hread : byteAt buf pre.length = .ok (UInt8.ofNat (Nibble.nibble delta * 16 + len)) := by
    rw [hbuf, byteAt_append]
  have hbuf' : buf = (pre ++ [UInt8.ofNat (Nibble.nibble delta * 16 + len)]) ++
    (Nibble.extension delta ++ rest) := by
    rw [hbuf, append_assoc]
    rfl
  rw [parseOption, if_neg (by omega), hread]
  dsimp only [bind, Except.bind]
  rw [Nibble.high_nibble, Nibble.low_nibble, hbyte, show (Nibble.nibble delta * 16 + len) / 16 =
    Nibble.nibble delta by omega, show (Nibble.nibble delta * 16 + len) % 16 = len by omega,
    extended_eq hbuf' (by rw [length_append]; rfl) hdelta (by omega),
    show pre.length + (buf.length - pre.length) = buf.length by omega]

theorem encodeOption_length (o : Nat × Bytes) : (encodeOption o).length =
    1 + (Nibble.extension o.1).length + (Nibble.extension o.2.length).length + o.2.length := by
  rw [encodeOption, length_cons, length_append, length_append]
  omega

theorem parseOption_eq (hbuf : buf = pre ++ (encodeOption o ++ rest)) (hdelta : o.1 ≤ Nibble.limit)
    (hlen : o.2.length < 2 ^ 16) {runningDelta : Nat} :
    ∃ s, parseOption buf runningDelta pre.length (buf.length - pre.length) =
        .ok (⟨UInt8.ofNat (o.1 % 2 ^ 16 + runningDelta), s⟩, pre.length + (encodeOption o).length,
          (runningDelta + o.1 % 2 ^ 16) % 2 ^ 16) ∧ s.data buf = o.2 := by
  have hlength := congrArg List.length hbuf
  have hlimit : o.2.length ≤ Nibble.limit := by
    unfold Nibble.limit
    omega
  have hnibble := Nibble.nibble_lt o.2.length
  have hsize := encodeOption_length o
  rw [length_append, length_append] at hlength
  have hfirst :
    buf = pre ++
      (UInt8.ofNat (Nibble.nibble o.1 * 16 + Nibble.nibble o.2.length) :: (Nibble.extension o.1 ++
      (Nibble.extension o.2.length ++ (o.2 ++ rest)))) := by
    simp [hbuf, encodeOption]
  generalize hhead :
    pre ++ UInt8.ofNat (Nibble.nibble o.1 * 16 + Nibble.nibble o.2.length) :: Nibble.extension o.1 =
      head
  have hsecond : buf = head ++ (Nibble.extension o.2.length ++ (o.2 ++ rest)) := by
    rw [hfirst, ← hhead, append_assoc]
    rfl
  have hheadLen : pre.length + (Nibble.extension o.1).length + 1 = head.length := by
    rw [← hhead, length_append, length_cons]
    omega
  have hdata := Slice.data_append (head ++ Nibble.extension o.2.length) o.2 rest
  rw [append_assoc, ← hsecond, length_append] at hdata
  refine ⟨_, ?_, hdata⟩
  rw [parseOption_delta hfirst hdelta (by omega)]
  dsimp only
  rw [extended_eq hsecond hheadLen hlimit (by omega)]
  dsimp only [bind, Except.bind]
  rw [Nat.mod_eq_of_lt hlen, if_neg (by omega), ← hheadLen, hsize]
  refine congrArg Except.ok (Prod.ext ?_ (Prod.ext ?_ rfl))
  · dsimp only
    rw [show pre.length + (Nibble.extension o.1).length + (Nibble.extension o.2.length).length + 1 =
      pre.length + (Nibble.extension o.1).length + 1 +
        (Nibble.extension o.2.length).length by omega]
  · dsimp only
    omega

def CoapOption.read (buf : Bytes) (o : CoapOption Slice) : Nat × Bytes :=
  (o.num.toNat, o.buf.data buf)

theorem optionByte_ne (delta len : Nat) : UInt8.ofNat (Nibble.nibble delta * 16 + Nibble.nibble len)
    ≠ 0xFF := by
  intro h
  have hdelta := Nibble.nibble_lt delta
  have hlen := Nibble.nibble_lt len
  have hbyte := congrArg UInt8.toNat h
  rw [Nibble.toNat_ofNat_of_lt (by omega)] at hbyte
  change _ = 255 at hbyte
  omega

theorem encodeOption_head : ∃ b tail, encodeOption o ++ rest = b :: tail ∧ b ≠ 0xFF :=
  ⟨_, _, rfl, optionByte_ne _ _⟩

theorem optionsLoop_append {options : List (Nat × Bytes)} (left optionIndex : Nat)
    (opts : List (CoapOption Slice)) (hbuf : buf = pre ++ (options.flatMap encodeOption ++ rest))
    (hfit : ∀ o ∈ numbered base options, o.1 < 256) (hlen : ∀ o ∈ options, o.2.length < 2 ^ 16)
    (hroom : optionIndex + options.length ≤ opts.length) :
    ∃ opts' read delta, read.map (CoapOption.read buf) = numbered base options ∧
    opts'.length = opts.length ∧
      opts'.take (optionIndex + options.length) = opts.take optionIndex ++ read ∧
      optionsLoop buf (options.length + left) opts optionIndex base pre.length =
        optionsLoop buf left opts' (optionIndex + options.length) delta
          (pre.length + (options.flatMap encodeOption).length) := by
  induction options generalizing base optionIndex opts pre with
  | nil =>
    refine ⟨opts, [], base, rfl, rfl, (append_nil _).symm, ?_⟩
    rw [length_nil, Nat.zero_add]
    rfl
  | cons o options ih =>
    rw [length_cons] at hroom ⊢
    have hfirst : base + o.1 < 256 := hfit _ mem_cons_self
    have hindex : optionIndex < opts.length := by omega
    have hbuf' : buf = pre ++ (encodeOption o ++ (options.flatMap encodeOption ++ rest)) := by
      simp [hbuf]
    obtain ⟨b, tail, hhead, hb⟩ := encodeOption_head
    have hlt : pre.length < buf.length := by
      rw [hbuf', hhead, length_append, length_cons]
      omega
    have hbyte : byteAt buf pre.length = .ok b := by rw [hbuf', hhead, byteAt_append]
    obtain ⟨slice, hparse, hdata⟩ := parseOption_eq hbuf' (by unfold Nibble.limit; omega)
      (hlen o mem_cons_self)
    rw [Nat.mod_eq_of_lt (show o.1 < 2 ^ 16 by omega),
      Nat.mod_eq_of_lt (show base + o.1 < 2 ^ 16 by omega)] at hparse
    obtain ⟨opts', read, delta, hread, hopts, htake, hloop⟩ := ih
      (optionIndex + 1) (opts.set optionIndex ⟨UInt8.ofNat (o.1 + base), slice⟩)
        (show _ = (pre ++ encodeOption o) ++ _ by rw [hbuf', append_assoc])
      (forall_mem_cons.1 hfit).2 (forall_mem_cons.1 hlen).2
      (by rw [length_set]; omega)
    refine ⟨opts', ⟨UInt8.ofNat (o.1 + base), slice⟩ :: read, delta, ?_, hopts.trans length_set, ?_,
      ?_⟩
    · rw [map_cons, hread, CoapOption.read, Nibble.toNat_ofNat_of_lt (by omega), hdata,
        Nat.add_comm]
      rfl
    · rw [show optionIndex + (options.length + 1) = optionIndex + 1 + options.length by omega,
        htake, take_stored hindex, append_assoc]
      rfl
    · rw [show options.length + 1 + left = options.length + left + 1 by omega, optionsLoop,
        if_pos hlt, hbyte]
      dsimp only [bind, Except.bind]
      rw [if_neg hb, hparse]
      dsimp only
      rw [storeOption_eq hindex]
      dsimp only
      rw [length_append] at hloop
      rw [hloop, flatMap_cons, length_append, Nat.add_assoc, Nat.add_assoc, Nat.add_comm 1]

theorem optionsLoop_stop (hbuf : buf = pre ++ encodePayload payload) :
    optionsLoop buf left opts optionIndex delta pre.length = .ok
    (opts, optionIndex, pre.length) := by
  cases left with
  | zero => rfl
  | succ left =>
    rw [optionsLoop]
    rw [encodePayload] at hbuf
    split at hbuf
    · rw [append_nil] at hbuf
      rw [hbuf, if_neg (Nat.lt_irrefl _)]
    · have hlt : pre.length < buf.length := by
        rw [hbuf, length_append, length_cons]
        omega
      rw [if_pos hlt, hbuf, byteAt_append]
      rfl

theorem parsePayload_eq (hbuf : buf = pre ++ encodePayload payload) :
    ∃ s, parsePayload buf pre.length = .ok s ∧ s.data buf = payload := by
  rw [encodePayload] at hbuf
  split at hbuf
  · rename_i hnil
    rw [append_nil] at hbuf
    refine ⟨.null, ?_, hnil.symm⟩
    rw [parsePayload, if_neg (by rw [hbuf]; omega)]
  · rename_i hsome
    have hpos := length_pos_iff.2 hsome
    have hlen : buf.length = pre.length + (payload.length + 1) := by simp [hbuf]
    have hdata := Slice.data_append (pre ++ [0xFF]) payload []
    rw [append_nil, append_assoc, singleton_append, ← hbuf, length_append] at hdata
    refine ⟨_, ?_, hdata⟩
    have hread : byteAt buf pre.length = .ok 0xFF := by rw [hbuf, byteAt_append]
    rw [parsePayload, if_pos (by omega), hread]
    dsimp only [bind, Except.bind]
    rw [if_pos rfl, hlen, show pre.length + (payload.length + 1) - (pre.length + 1) =
      payload.length by omega]
    rfl

structure Reports (pkt : CoapPacket Slice) (buf : Bytes) (m : Message) : Prop where
  ver : pkt.hdr.ver = 1
  t : pkt.hdr.t.toNat = m.t
  tkl : pkt.hdr.tkl.toNat = m.token.length
  code : pkt.hdr.code = m.code
  id : pkt.hdr.id = m.id
  token : pkt.tok.data buf = m.token
  numopts : pkt.numopts = m.options.length
  options : pkt.options.map (CoapOption.read buf) = numbered 0 m.options
  payload : pkt.payload.data buf = m.payload

theorem parseHeader_eq (hbuf : buf = b :: code :: id0 :: id1 :: rest) (hver : b.toNat / 64 = 1) :
    parseHeader buf = .ok ⟨1, (b &&& 0x30) >>> 4, b &&& 0x0F, code, (id0, id1)⟩ := by
  have hone : (b &&& 0xC0) >>> 6 = 1 := UInt8.toNat_inj.1 ((Nibble.top_bits b).trans hver)
  have hlen : ¬buf.length < 4 := by
    rw [hbuf]
    simp only [length_cons]
    omega
  rw [parseHeader, if_neg hlen, hbuf]
  dsimp only [byteAt, getElem?_cons_zero, getElem?_cons_succ, bind, Except.bind]
  rw [hone]
  rfl

theorem parseToken_eq (hbuf : buf = pre ++ (token ++ rest)) (hpre : pre.length = 4)
    (htkl : hdr.tkl.toNat = token.length) (hlen : token.length ≤ 8) :
    ∃ s, parseToken hdr buf = .ok s ∧ s.data buf = token := by
  unfold parseToken
  split
  · rename_i hzero
    rw [hzero] at htkl
    exact ⟨_, rfl, (length_eq_zero_iff.1 htkl.symm).symm⟩
  · have hlength := congrArg List.length hbuf
    rw [length_append, length_append] at hlength
    have hle : hdr.tkl ≤ 8 := UInt8.le_iff_toNat_le.2 (htkl ▸ hlen)
    rw [if_pos hle, if_neg (by omega)]
    have hdata := Slice.data_append pre token rest
    rw [← hbuf, hpre, ← htkl] at hdata
    exact ⟨_, rfl, hdata⟩

theorem coapParse_message (hvalid : m.Valid) (hfits : m.Fits)
    (hopts : pkt.opts.length = maxOpt) : ∃ pkt', coapParse pkt m.encode = .ok pkt' ∧
    Reports pkt' m.encode m := by
  have ht := hvalid.t
  have htok := hvalid.token
  have hcount : m.options.length ≤ maxOpt := hfits.count
  generalize hbuf : m.encode = buf
  generalize hb : UInt8.ofNat (64 + m.t * 16 + m.token.length) = b
  have hbyte : b.toNat = 64 + m.t * 16 + m.token.length := by
    rw [← hb]
    exact Nibble.toNat_ofNat_of_lt (by omega)
  rw [Message.encode, hb] at hbuf
  have hheader := parseHeader_eq hbuf.symm (by omega)
  generalize hhdr : CoapHeader.mk 1 ((b &&& 0x30) >>> 4) (b &&& 0x0F) m.code (m.id.1, m.id.2) =
    hdr at hheader
  have htkl : hdr.tkl.toNat = m.token.length := by
    rw [← hhdr, Nibble.low_nibble]
    omega
  have ht' : hdr.t.toNat = m.t := by
    rw [← hhdr, Nibble.next_bits]
    omega
  obtain ⟨tok, htoken, htokData⟩ := parseToken_eq hbuf.symm rfl htkl htok
  generalize hpre : [b, m.code, m.id.1, m.id.2] ++ m.token = pre
  have hpreLen : pre.length = 4 + hdr.tkl.toNat := by
    rw [← hpre, length_append, htkl]
    rfl
  have hbuf' : buf = pre ++ (m.options.flatMap encodeOption ++ encodePayload m.payload) := by
    rw [← hbuf, ← hpre, append_assoc]
  have hbuf'' : buf = (pre ++ m.options.flatMap encodeOption) ++ encodePayload m.payload := by
    rw [hbuf', append_assoc]
  have hle : ¬buf.length < pre.length := by
    rw [hbuf', length_append]
    omega
  obtain ⟨opts, read, delta, hread, hoptsLen, htake, hloop⟩ := optionsLoop_append
    (maxOpt - m.options.length) 0 pkt.opts hbuf' hfits.numbers hfits.lengths (by omega)
  obtain ⟨payload, hpayload, hpayloadData⟩ := parsePayload_eq hbuf''
  rw [Nat.zero_add, ← length_append, optionsLoop_stop hbuf'', Nat.add_sub_cancel' hcount] at hloop
  rw [Nat.zero_add, take_zero, nil_append] at htake
  refine ⟨⟨hdr, tok, m.options.length, opts, payload⟩, ?_, ?_⟩
  · rw [coapParse, hheader, ok_bind, htoken, ok_bind, ← hpreLen, if_neg hle, hloop, ok_bind]
    dsimp only
    rw [hpayload, ok_bind]
  · refine ⟨?_, ht', htkl, ?_, ?_, htokData, rfl, ?_, hpayloadData⟩
    iterate 3 rw [← hhdr]
    rw [CoapPacket.options, htake, hread]

theorem coapParse_loop (h : coapParse pkt buf = .ok pkt') :
    ∃ p, optionsLoop buf maxOpt pkt.opts 0 0 (4 + pkt'.hdr.tkl.toNat) = .ok
    (pkt'.opts, pkt'.numopts, p) := by
  obtain ⟨hdr, -, h⟩ := bind_eq_ok.1 h
  obtain ⟨tok, -, h⟩ := bind_eq_ok.1 h
  dsimp only at h
  split at h
  · cases h
  · obtain ⟨⟨opts, numopts, p⟩, hloop, h⟩ := bind_eq_ok.1 h
    obtain ⟨payload, -, h⟩ := bind_eq_ok.1 h
    cases h
    exact ⟨p, hloop⟩

def getMessage : Message := ⟨0, 1, (1, 2), [7], [(11, [97])], []⟩

theorem parse_safe_get : Safe (fun pkt' => pkt'.opts.length = maxOpt ∧ pkt'.numopts ≤ maxOpt ∧
    (∀ s ∈ pkt'.slices, s = .null ∨ ∃ i, s.p = some i ∧ 4 ≤ i ∧
    i + s.len ≤ getMessage.encode.length) ∧
    pkt'.slices.Pairwise fun a b => ∀ k, ¬(a.Covers k ∧ b.Covers k))
    (coapParse emptyPacket getMessage.encode) :=
  parse_safe emptyPacket getMessage.encode rfl

end SwApi.Coap
