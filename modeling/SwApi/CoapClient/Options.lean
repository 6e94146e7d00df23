import SwApi.CoapClient.Params

/-! Which parameter lists `coap_client2packet` turns into options. -/
namespace SwApi.CoapClient
open Library Coap List
open Url (cstr)

def segments (list : List ParamNode) : List Bytes :=
  match paramFindNode list path with
  | none => []
  | some node => (cstr node.v).splitOn 47

def formatOption (list : List ParamNode) : List (CoapOption Bytes) :=
  match paramFindNode list contentFormat with
  | none => []
  | some node => [⟨optContentFormat, [str2num (cstr node.v)]⟩]

def isQuery (node : ParamNode) : Bool := !(isEqual node contentFormat || isEqual node path)

def queries (list : List ParamNode) : List ParamNode :=
  (list.eraseP fun node => isEqual node path).eraseP fun node => isEqual node contentFormat

def valuesOf (num : UInt8) (opts : List (CoapOption Bytes)) : List Bytes :=
  (opts.filter fun opt => opt.num = num).map CoapOption.buf

/-- Stores stay inside `opts`, the options are counted and ordered, and none is missing unless the
function says so. -/
structure Packed (list : List ParamNode) (r : Filled) : Prop where
  inside : r.stores.length ≤ maxOpt
  counted : r.pkt.numopts ≤ maxOpt
  ordered : (r.pkt.options.map CoapOption.num).Pairwise (· ≤ ·)
  complete : r.ret = true →
    valuesOf uriPath r.pkt.options = segments list ∧
      valuesOf uriQuery r.pkt.options = (queries list).map ParamNode.data

/-- The lists that fit: no slash ends the path, which has at most 16 segments, there are at most 15
options if there are queries among them, and no name is used twice for the path or the content
format. -/
structure Fits (list : List ParamNode) : Prop where
  slash : (segments list).length ≤ 1 ∨ (segments list).getLast? ≠ some []
  array : (segments list).length ≤ maxOpt
  room : queries list = [] ∨ (segments list).length + (formatOption list).length +
    (queries list).length ≤ maxOpt - 1
  names : ∀ node ∈ queries list, isQuery node = true

def pathOption (segment : Bytes) : CoapOption Bytes := ⟨uriPath, segment⟩

def queryOption (node : ParamNode) : CoapOption Bytes := ⟨uriQuery, node.data⟩

theorem pathLoop_of_fits (hslash : segs.length ≤ 1 ∨ segs.getLast? ≠ some [])
    (hroom : opts.length + segs.length ≤ maxOpt + 1) : (pathLoop segs opts).1 = true := by
  fun_induction pathLoop segs opts with
  | case1 | case2 => rfl
  | case3 q next rest opts hend =>
    obtain ⟨rfl, rfl⟩ := hend
    simp at hslash
  | case4 q next rest opts hend hfull =>
    simp only [length_cons] at hroom
    omega
  | case5 q next rest opts hend hfull ih =>
    refine ih ?_ ?_
    · rw [getLast?_cons_cons] at hslash
      exact hslash.imp_left fun h => by simp at h
    · simp only [length_cons, length_append, length_nil] at hroom ⊢
      omega

theorem pathLoop_stores (h : (pathLoop segs opts).1 = true) :
    (pathLoop segs opts).2 = opts ++ segs.map pathOption ∧
    (segs.length ≤ 1 ∨ segs.getLast? ≠ some []) ∧
      (segs.length ≤ 1 ∨ opts.length + segs.length ≤ maxOpt + 1) := by
  fun_induction pathLoop segs opts with
  | case1 => simp
  | case2 => simp [pathOption]
  | case3 | case4 => cases h
  | case5 q next rest opts hend hfull ih =>
    obtain ⟨hstores, hslash, hroom⟩ := ih h
    refine ⟨?_, .inr ?_, .inr ?_⟩
    · rw [hstores, append_assoc]
      rfl
    · rw [getLast?_cons_cons]
      refine hslash.elim (fun hlength => ?_) id
      obtain rfl : rest = [] := length_eq_zero_iff.1 (by simpa using hlength)
      simpa using hend
    · simp only [length_cons, length_append, length_nil] at hroom ⊢
      omega

theorem queryLoop_eq :
    queryLoop list opts = opts ++ ((list.filter isQuery).take (maxOpt - 1 - opts.length)).map
    queryOption := by
  fun_induction queryLoop list opts with
  | case1 opts => simp
  | case2 node list opts hfull => simp [Nat.sub_eq_zero_of_le hfull]
  | case3 node list opts hfull hskip ih =>
    rw [ih, filter_cons_of_neg]
    simp [isQuery, hskip]
  | case4 node list opts hfull hskip ih =>
    obtain ⟨k, hk⟩ : ∃ k, maxOpt - 1 - opts.length = k + 1 :=
      ⟨maxOpt - 1 - opts.length - 1, by omega⟩
    have hnext : maxOpt - 1 - (opts ++ [queryOption node]).length = k := by
      simp only [length_append, length_singleton]
      omega
    have hquery : isQuery node = true := by simp [isQuery, hskip]
    have hstore : opts ++ [⟨uriQuery, node.data⟩] = opts ++ [queryOption node] := rfl
    rw [ih, hstore, hnext, filter_cons_of_pos hquery, hk, take_succ_cons, map_cons, append_assoc]
    rfl

theorem filter_eraseP {list : List ParamNode} (hname : name = contentFormat ∨ name = path) :
    (list.eraseP fun node => isEqual node name).filter isQuery = list.filter isQuery := by
  induction list with
  | nil => rfl
  | cons node list ih =>
    rw [eraseP_cons]
    cases hnode : isEqual node name with
    | true =>
      have hquery : ¬isQuery node = true := by
        rcases hname with rfl | rfl <;> simp [isQuery, hnode]
      rw [filter_cons_of_neg hquery]
      rfl
    | false => rw [cond_false, filter_cons, filter_cons, ih]

theorem filter_queries : (queries list).filter isQuery = list.filter isQuery := by
  rw [queries, filter_eraseP (.inl rfl), filter_eraseP (.inr rfl)]

theorem pathOpts_eq : pathOpts list = pathLoop (segments list) [] := by
  unfold pathOpts segments
  cases paramFindNode list path with
  | none | some node => rfl

theorem formatOpts_eq :
    formatOpts list opts = opts ++ if opts.length < maxOpt - 1 then formatOption list else [] := by
  unfold formatOpts formatOption
  cases paramFindNode list contentFormat with
  | none => simp
  | some node =>
    by_cases hroom : opts.length < maxOpt - 1
    · simp [if_pos hroom]
    · simp [if_neg hroom]

def formatStored (list : List ParamNode) : List (CoapOption Bytes) :=
  if (segments list).length < maxOpt - 1 then formatOption list else []

def queryStored (list : List ParamNode) : List ParamNode :=
  (list.filter isQuery).take (maxOpt - 1 - ((segments list).length + (formatStored list).length))

def stored (list : List ParamNode) : List (CoapOption Bytes) :=
  (segments list).map pathOption ++ (formatStored list ++ (queryStored list).map queryOption)

theorem list2opts_stored (h : (pathLoop (segments list) []).1 = true) :
    list2opts (some list) = (((stored list).length : Int), stored list) := by
  have hpath : pathOpts list = (true, (segments list).map pathOption) := by
    rw [pathOpts_eq]
    exact Prod.ext h (pathLoop_stores h).1
  have hstored : queryLoop list (formatOpts list ((segments list).map pathOption)) =
    stored list := by
    rw [formatOpts_eq, queryLoop_eq, length_append, length_map, append_assoc]
    rfl
  simp only [list2opts, hpath, if_true, hstored]

section
variable (list : List ParamNode)

theorem formatOption_length : (formatOption list).length ≤ 1 := by
  unfold formatOption
  split
  · exact Nat.zero_le 1
  · exact Nat.le_refl 1

theorem formatOption_num (h : opt ∈ formatOption list) : opt.num = optContentFormat := by
  unfold formatOption at h
  split at h
  · cases h
  · rw [mem_singleton.1 h]

theorem formatStored_num (h : opt ∈ formatStored list) : opt.num = optContentFormat := by
  unfold formatStored at h
  split at h
  · exact formatOption_num list h
  · cases h

theorem stored_ordered : ((stored list).map CoapOption.num).Pairwise (· ≤ ·) := by
  have hgroup {opts : List (CoapOption Bytes)} {num : UInt8} (h : ∀ opt ∈ opts, opt.num = num) :
      opts.Pairwise fun a b => a.num ≤ b.num :=
    pairwise_of_forall_mem_list fun a ha b hb => by
      rw [h a ha, h b hb]
      exact UInt8.le_refl num
  have hpath : ∀ opt ∈ (segments list).map pathOption, opt.num = uriPath := by simp [pathOption]
  have hformat : ∀ opt ∈ formatStored list, opt.num = optContentFormat :=
    fun opt => formatStored_num list
  have hquery : ∀ opt ∈ (queryStored list).map queryOption,
    opt.num = uriQuery := by simp [queryOption]
  rw [pairwise_map, stored, pairwise_append, pairwise_append]
  refine ⟨hgroup hpath, ⟨hgroup hformat, hgroup hquery, ?_⟩, ?_⟩
  · intro a ha b hb
    rw [hformat a ha, hquery b hb]
    decide
  · intro a ha b hb
    rw [hpath a ha]
    rcases mem_append.1 hb with hb | hb
    · rw [hformat b hb]
      decide
    · rw [hquery b hb]
      decide

end

theorem valuesOf_append : valuesOf num (a ++ b) = valuesOf num a ++ valuesOf num b := by
  rw [valuesOf, filter_append, map_append]
  rfl

theorem valuesOf_same (h : ∀ opt ∈ opts, opt.num = num) :
    valuesOf num opts = opts.map CoapOption.buf := by
  rw [valuesOf, filter_eq_self.2]
  exact fun opt hopt => decide_eq_true (h opt hopt)

theorem valuesOf_other (h : ∀ opt ∈ opts, opt.num ≠ num) : valuesOf num opts = [] := by
  rw [valuesOf, filter_eq_nil_iff.2, map_nil]
  exact fun opt hopt => by simp [h opt hopt]

theorem valuesOf_path : valuesOf uriPath (stored list) = segments list := by
  have hformat : valuesOf uriPath (formatStored list) = [] := valuesOf_other fun opt hopt => by
    rw [formatStored_num list hopt]
    decide
  have hquery : valuesOf uriPath ((queryStored list).map queryOption) = [] :=
    valuesOf_other (by simp [queryOption, uriQuery, uriPath])
  have hpath : valuesOf uriPath ((segments list).map pathOption) = segments list := by
    rw [valuesOf_same (by simp [pathOption]), map_map]
    exact map_id (segments list)
  rw [stored, valuesOf_append, valuesOf_append, hpath, hformat, hquery, append_nil, append_nil]

theorem valuesOf_query : valuesOf uriQuery (stored list) =
    (queryStored list).map ParamNode.data := by
  have hpath : valuesOf uriQuery ((segments list).map pathOption) = [] :=
    valuesOf_other (by simp [pathOption, uriQuery, uriPath])
  have hformat : valuesOf uriQuery (formatStored list) = [] := valuesOf_other fun opt hopt => by
    rw [formatStored_num list hopt]
    decide
  have hquery : valuesOf uriQuery ((queryStored list).map queryOption) =
    (queryStored list).map ParamNode.data := by
    rw [valuesOf_same (by simp [queryOption]), map_map]
    rfl
  rw [stored, valuesOf_append, valuesOf_append, hpath, hformat, hquery]
  rfl

section
variable (list : List ParamNode)

theorem queryStored_length : (queryStored list).length ≤ maxOpt - 1 -
    ((segments list).length + (formatStored list).length) :=
  length_take_le _ _

theorem stored_length : (stored list).length = (segments list).length +
    ((formatStored list).length + (queryStored list).length) := by
  simp [stored]

theorem stored_length_le (h : (segments list).length ≤ maxOpt) : (stored list).length ≤ maxOpt := by
  have hquery := queryStored_length list
  have hformat : (segments list).length + (formatStored list).length ≤ maxOpt := by
    unfold formatStored
    have hone := formatOption_length list
    split
    · omega
    · exact h
  rw [stored_length]
  omega

theorem formatStored_eq (h : (segments list).length < maxOpt - 1) :
    formatStored list = formatOption list := if_pos h

/-- All queries are stored exactly when there is room for them and none of them is taken for
something else. -/
theorem queryStored_eq_iff : (queryStored list).map ParamNode.data =
    (queries list).map ParamNode.data ↔
      (queries list = [] ∨ (segments list).length + (formatOption list).length +
        (queries list).length ≤ maxOpt - 1) ∧ ∀ node ∈ queries list, isQuery node = true := by
  constructor
  · intro h
    have hlength : (queryStored list).length = (queries list).length := by
      have h := congrArg List.length h
      rwa [length_map, length_map] at h
    have hroom := queryStored_length list
    have htaken : (queryStored list).length ≤ (list.filter isQuery).length := length_take_le' _ _
    have hfilter := length_filter_le isQuery (queries list)
    rw [filter_queries] at hfilter
    refine ⟨?_, ?_⟩
    · by_cases hnil : queries list = []
      · exact .inl hnil
      · have hpos := length_pos_iff.2 hnil
        rw [← formatStored_eq list (by omega)]
        exact .inr (by omega)
    · rw [← length_filter_eq_length_iff, filter_queries]
      omega
  · rintro ⟨hroom, hnames⟩
    have hall : list.filter isQuery = queries list := by
      rw [← filter_queries, filter_eq_self.2 hnames]
    rw [queryStored, hall]
    rcases hroom with hnil | hroom
    · rw [hnil, take_nil]
    · by_cases hnil : queries list = []
      · rw [hnil, take_nil]
      · have hpos := length_pos_iff.2 hnil
        rw [formatStored_eq list (by omega), take_of_length_le (by omega)]

end

theorem list2opts_getD : list2opts plist = list2opts (some (plist.getD [])) := by
  cases plist with
  | none | some list => rfl

section
variable (client : RequestHead) (tok payload : Bytes)

theorem packet_stores : (coapClient2packet client tok payload).stores =
    (list2opts (some (client.plist.getD []))).2 :=
  congrArg Prod.snd list2opts_getD

theorem packet_numopts :
    (coapClient2packet client tok payload).pkt.numopts =
    ((list2opts (some (client.plist.getD []))).1 % 256).toNat :=
  congrArg (fun r : Int × List (CoapOption Bytes) => (r.1 % 256).toNat) list2opts_getD

theorem packet_options (hloop : (pathLoop (segments (client.plist.getD [])) []).1 = true)
    (hroom : (stored (client.plist.getD [])).length ≤ maxOpt) :
    (coapClient2packet client tok payload).pkt.numopts = (stored (client.plist.getD [])).length ∧
      (coapClient2packet client tok payload).pkt.options = stored (client.plist.getD []) := by
  have hmax : maxOpt = 16 := rfl
  have hnumopts : (coapClient2packet client tok payload).pkt.numopts =
    (stored (client.plist.getD [])).length := by
    rw [packet_numopts, list2opts_stored hloop]
    simp only
    omega
  refine ⟨hnumopts, ?_⟩
  have hopts : (coapClient2packet client tok payload).pkt.opts =
      (stored (client.plist.getD []) ++ replicate maxOpt (CoapOption.mk 0 [])).take maxOpt := by
    rw [show stored (client.plist.getD []) = (coapClient2packet client tok payload).stores by
      rw [packet_stores, list2opts_stored hloop]]
    rfl
  rw [CoapPacket.options, hnumopts, hopts, take_take, Nat.min_eq_left hroom, take_left]

/-- A parameter list becomes options exactly when it fits. -/
theorem packed_iff : Packed (client.plist.getD []) (coapClient2packet client tok payload) ↔
    Fits (client.plist.getD []) := by
  have hmax : maxOpt = 16 := rfl
  constructor
  · intro h
    have hloop : (pathLoop (segments (client.plist.getD [])) []).1 = true := by
      by_contra hloop
      -- The result -1 is 255 options.
      have hcounted := h.counted
      rw [packet_numopts, list2opts, pathOpts_eq] at hcounted
      simp [if_neg hloop, hmax] at hcounted
    have hinside := h.inside
    rw [packet_stores, list2opts_stored hloop] at hinside
    have hcomplete := (h.complete rfl).2
    rw [(packet_options client tok payload hloop hinside).2, valuesOf_query,
      queryStored_eq_iff] at hcomplete
    rw [stored_length] at hinside
    exact ⟨(pathLoop_stores hloop).2.1, by omega, hcomplete.1, hcomplete.2⟩
  · intro h
    have hroom := h.array
    have hloop : (pathLoop (segments (client.plist.getD [])) []).1 = true :=
      pathLoop_of_fits h.slash (Nat.le_trans (Nat.le_of_eq (Nat.zero_add _))
        (Nat.le_succ_of_le hroom))
    have hinside := stored_length_le _ hroom
    obtain ⟨hnumopts, hoptions⟩ := packet_options client tok payload hloop hinside
    refine ⟨?_, ?_, ?_, fun _ => ⟨?_, ?_⟩⟩
    · rw [packet_stores, list2opts_stored hloop]
      exact hinside
    · rw [hnumopts]
      exact hinside
    · rw [hoptions]
      exact stored_ordered _
    · rw [hoptions]
      exact valuesOf_path
    · rw [hoptions, valuesOf_query]
      exact (queryStored_eq_iff _).2 ⟨h.room, h.names⟩

end

def longPath : RequestHead := ⟨0, 1, (0, 0), some [⟨path, intercalate [47] (replicate 17 [97])⟩]⟩

/-- The last segment is stored behind the array. -/
theorem long_path_overruns : ¬Packed (longPath.plist.getD []) (coapClient2packet longPath [] []) :=
  fun h =>
  absurd h.inside (by decide +kernel)

end SwApi.CoapClient
