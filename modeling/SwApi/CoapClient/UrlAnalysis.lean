import SwApi.CoapClient.Params
import SwApi.Url.Text

/-! What `coap_url_analysis` makes of a URL. -/
namespace SwApi.CoapClient
open Library Coap List Option
open Url (strchr strstr peek Free strchr_append strchr_none strchr_cons strstr_found)

structure Quad where
  a : UInt8
  b : UInt8
  c : UInt8
  d : UInt8
deriving DecidableEq

def Quad.text (quad : Quad) : Bytes :=
  decimal quad.a.toNat ++ 46 :: (decimal quad.b.toNat ++
    46 :: (decimal quad.c.toNat ++ 46 :: decimal quad.d.toNat))

/-- What is used of the functions outside of the sources: every quad is an address, whose number is
-1 for the last of them only, and no host has a name with a slash. -/
structure Resolver.Sound (net : Resolver) : Prop where
  quads : ∀ quad : Quad, net.isAddress quad.text = true
  values : ∀ quad : Quad, net.charIpTransInt quad.text = -1 ↔ quad = ⟨255, 255, 255, 255⟩
  slash : ∀ name, 47 ∈ name → net.isAddress name = false ∧ net.getServerIp name = none

/-- `coap://host[:port]/path[?k1=v1&...&km=vm]`. -/
structure CoapUrl where
  host : Quad
  port : Option Bytes
  path : Bytes
  params : List ParamNode
  port_valid : ∀ digits ∈ port, (∀ c ∈ digits, isDigit c = true) ∧ 1 ≤ horner digits ∧
    horner digits ≤ 65535
  path_valid : path ≠ [] ∧ path.getLast? ≠ some 47 ∧ Free path [0, 63]
  params_valid : ∀ node ∈ params, (node.n ≠ [] ∧ Free node.n [0, 63, 38, 61, 47]) ∧ node.v ≠ [] ∧
    Free node.v [0, 63, 38, 61, 47]

namespace CoapUrl

def portText (u : CoapUrl) : Bytes := u.port.elim [] (58 :: ·)

def more (nodes : List ParamNode) : Bytes := nodes.flatMap fun node => 38 :: node.data

def query : List ParamNode → Bytes
  | [] => []
  | node :: nodes => 63 :: (node.data ++ more nodes)

def place (u : CoapUrl) : Bytes := 47 :: (u.path ++ query u.params)

def text (u : CoapUrl) : Bytes :=
  CoapClient.text "coap://" ++ (u.host.text ++ (u.portText ++ u.place))

def portNumber (u : CoapUrl) : Nat := u.port.elim defaultPort horner

end CoapUrl

def Analysed (net : Resolver) (u : CoapUrl) : Prop :=
  ∃ ip, coapUrlAnalysis net u.text [] = .ok (some ⟨ip, u.portNumber, ⟨path, u.path⟩ :: u.params⟩)

section
variable {c : UInt8}

theorem strchr_at (h : c ∉ s) (rest : Bytes) : strchr c (s ++ c :: rest) = some (c :: rest) := by
  rw [strchr_append h, strchr_cons]

theorem not_mem_decimal (hc : isDigit c = false) (n : Nat) : c ∉ decimal n := fun h => by
  rw [isDigit_of_mem_decimal h] at hc
  cases hc

theorem Quad.not_mem_text (quad : Quad) (hc : isDigit c = false) (hdot : c ≠ 46) :
    c ∉ quad.text := by
  have hd := not_mem_decimal hc
  simp [Quad.text, hd, hdot]

theorem Quad.text_length (quad : Quad) : quad.text.length ≤ 15 := by
  have hd (n : UInt8) : (decimal n.toNat).length ≤ 3 :=
    decimal_length (Nat.lt_trans n.toNat_lt (by decide))
  have ha := hd quad.a
  have hb := hd quad.b
  have hc := hd quad.c
  have hd := hd quad.d
  simp only [Quad.text, length_append, length_cons]
  omega

theorem CoapUrl.not_mem_portText (u : CoapUrl) (hc : isDigit c = false) (hcolon : c ≠ 58) :
    c ∉ u.portText := by
  unfold CoapUrl.portText
  cases hport : u.port with
  | none => exact not_mem_nil
  | some digits =>
    intro h
    rcases mem_cons.1 h with h | h
    · exact hcolon h
    · rw [(u.port_valid digits hport).1 c h] at hc
      cases hc

theorem CoapUrl.strchr_slash (u : CoapUrl) : strchr 47 (u.host.text ++ (u.portText ++ u.place)) =
    some u.place := by
  rw [strchr_append (u.host.not_mem_text (by decide) (by decide)),
    strchr_append (u.not_mem_portText (by decide) (by decide)), CoapUrl.place, strchr_cons]

theorem CoapUrl.text_drop (u : CoapUrl) : u.text.drop 7 = u.host.text ++ (u.portText ++ u.place) :=
  rfl

theorem strncpy_append (s rest : Bytes) : strncpy (s ++ rest) s.length = s := by
  simp [strncpy]

theorem strncpy_longer (s : Bytes) (k : Nat) : strncpy s (s.length + k) = s ++ replicate k 0 := by
  simp [strncpy, take_of_length_le]

end

theorem isCoap_text (u : CoapUrl) : isCoap u.text = .ok true := by
  obtain ⟨d, hd, hfound, -⟩ := strstr_found (s := text "coap://") (p := u.text) (k := 0) ⟨_, rfl⟩
  obtain rfl := Nat.le_zero.1 hd
  simp [isCoap, hfound]

/-- The first colon and the first slash of a URL are those of `coap://`: whatever its port is, the
text `:` is read. -/
theorem findPort_text (u : CoapUrl) : findPort u.text = .ok 0 := by
  have hcolon :
    strchr 58 u.text = some (58 :: 47 :: 47 :: (u.host.text ++ (u.portText ++ u.place))) := rfl
  have hslash : strchr 47 u.text = some (47 :: 47 :: (u.host.text ++ (u.portText ++ u.place))) :=
    rfl
  rw [findPort, hcolon, hslash]
  simp only [length_cons, Nat.lt_add_one, if_true, Nat.add_sub_cancel_left]
  rfl

theorem checkPath_text (u : CoapUrl) : checkPath (u.text.drop 7) = .ok true := by
  obtain ⟨hne, hlast, hfree⟩ := u.path_valid
  have hquery : 63 ∉ 47 :: u.path := by
    have hpath : 63 ∉ u.path := hfree.not_mem (by decide)
    simp [hpath]
  have hend : (47 :: u.path).getLast? ≠ some 47 := by
    rw [getLast?_cons_of_ne_nil hne]
    exact hlast
  rw [checkPath, u.text_drop, u.strchr_slash, CoapUrl.place]
  cases u.params with
  | nil =>
    simp only [CoapUrl.query, append_nil, strchr_none hquery]
    exact congrArg Except.ok (decide_eq_true hend)
  | cons node nodes =>
    have hfound := strchr_at hquery (node.data ++ CoapUrl.more nodes)
    rw [cons_append] at hfound
    simp only [CoapUrl.query, hfound]
    have hget : (47 :: (u.path ++ 63 :: (node.data ++ CoapUrl.more nodes)))[u.path.length]? =
      (47 :: u.path).getLast? := by
      rw [← cons_append, getElem?_append_left (by simp), getLast?_eq_getElem?]
      rfl
    have hlength : (47 :: (u.path ++ 63 :: (node.data ++ CoapUrl.more nodes))).length -
        (63 :: (node.data ++ CoapUrl.more nodes)).length - 1 = u.path.length := by
      simp only [length_cons, length_append]
      omega
    refine congrArg Except.ok (decide_eq_true ?_)
    rw [hlength, hget]
    exact hend

theorem findIp_split (hsplit : url.drop 7 = host ++ p)
    (hfound : (strchr 58 (url.drop 7)).or (strchr 47 (url.drop 7)) = some p) :
    findIp net url = if 64 ≤ host.length then .error .undefined else .ok (net.ipOf host) := by
  have hhost : (url.drop 7).take ((url.drop 7).length - p.length) = host := by
    rw [hsplit, length_append, Nat.add_sub_cancel_right]
    exact take_left
  simp only [findIp, hfound, hhost]

theorem findIp_text {net : Resolver} (hnet : net.Sound) {u : CoapUrl} (h : u.port = none →
    58 ∉ u.place) : findIp net u.text = .ok (net.charIpTransInt u.host.text) := by
  have hhost : 58 ∉ u.host.text := u.host.not_mem_text (by decide) (by decide)
  have hfound : (strchr 58 (u.text.drop 7)).or (strchr 47 (u.text.drop 7)) =
    some (u.portText ++ u.place) := by
    rw [u.text_drop, u.strchr_slash, strchr_append hhost, CoapUrl.portText]
    cases hport : u.port with
    | none =>
      rw [elim_none, nil_append, strchr_none (h hport)]
      rfl
    | some digits =>
      rw [elim_some, cons_append, strchr_cons]
      rfl
  have hlength := u.host.text_length
  rw [findIp_split u.text_drop hfound, if_neg (by omega), Resolver.ipOf, if_pos (hnet.quads u.host)]

theorem findIp_colon {net : Resolver} (hnet : net.Sound) {u : CoapUrl} (hport : u.port = none)
    (hcolon : 58 ∈ u.place) (h : findIp net u.text = .ok ip) : ip = -1 := by
  obtain ⟨w, rest, hplace, hw⟩ := eq_append_cons_of_mem hcolon
  have hdrop : u.text.drop 7 = (u.host.text ++ w) ++ 58 :: rest := by
    rw [u.text_drop, CoapUrl.portText, hport, hplace, append_assoc]
    rfl
  have hfound : (strchr 58 (u.text.drop 7)).or (strchr 47 (u.text.drop 7)) = some (58 :: rest) := by
    have hfree : 58 ∉ u.host.text ++ w := by
      rw [mem_append, not_or]
      exact ⟨u.host.not_mem_text (by decide) (by decide), hw⟩
    rw [hdrop, strchr_at hfree]
    rfl
  -- The text before the colon holds the slash in front of the path.
  have hslash : 47 ∈ u.host.text ++ w := by
    cases w with
    | nil =>
      rw [CoapUrl.place] at hplace
      exact absurd (List.cons.inj hplace).1 (by decide)
    | cons c w =>
      obtain rfl := (List.cons.inj hplace).1
      exact mem_append_right _ mem_cons_self
  obtain ⟨haddress, hserver⟩ := hnet.slash _ hslash
  rw [findIp_split hdrop hfound] at h
  split at h
  · cases h
  · simp only [Resolver.ipOf, haddress, hserver, Bool.false_eq_true, if_false, Except.ok.injEq] at h
    exact h.symm

def Plain (node : ParamNode) : Prop := node.n ≠ [] ∧ 61 ∉ node.n ∧ 38 ∉ node.data

theorem addParam_data (hnode : Plain node) (list : List ParamNode) (rest : Bytes) (k : Nat) :
    addParam list (node.data ++ rest) (node.data.length + k) =
      .ok (list ++ [⟨node.n, strncpy (node.v ++ rest) (node.v.length + k)⟩]) := by
  obtain ⟨hne, hequal, -⟩ := hnode
  have hpos := length_pos_iff.2 hne
  have hsplit : node.data ++ rest = node.n ++ 61 :: (node.v ++ rest) := by simp [ParamNode.data]
  have hlength : node.data.length = node.n.length + node.v.length + 1 := by
    simp [ParamNode.data, Nat.add_assoc]
  have hpeek : ¬61 = peek (node.n ++ 61 :: (node.v ++ rest)) := by
    cases hn : node.n with
    | nil => exact absurd hn hne
    | cons c n =>
      rw [hn] at hequal
      exact fun h => hequal (h ▸ mem_cons_self)
  have hnl : (node.n ++ 61 :: (node.v ++ rest)).length - (61 :: (node.v ++ rest)).length =
    node.n.length := by
    rw [length_append, Nat.add_sub_cancel_right]
  have hvl : node.n.length + node.v.length + 1 + k - node.n.length - 1 =
    node.v.length + k := by omega
  rw [addParam, hsplit, strchr_at hequal, hlength, if_neg (by omega)]
  simp only [hnl, Url.peek_cons, if_neg hpeek, hvl, tail_cons, newNode, if_neg (Nat.ne_of_gt hpos),
    strncpy_append, paramListAddNode]
  exact if_neg (by omega)

theorem addParam_exact (hnode : Plain node) (list : List ParamNode) (rest : Bytes) :
    addParam list (node.data ++ rest) node.data.length = .ok (list ++ [node]) := by
  have h := addParam_data hnode list rest 0
  rw [Nat.add_zero, Nat.add_zero, strncpy_append] at h
  exact h

theorem strchr_more (hnode : Plain node) (nodes : List ParamNode) :
    strchr 38 (node.data ++ CoapUrl.more nodes) = nodes.head?.map fun _ => CoapUrl.more nodes := by
  rw [strchr_append hnode.2.2]
  cases nodes with
  | nil => rfl
  | cons next nodes => exact strchr_cons 38 _

theorem param2listLoop_more (hfuel : nodes.length < fuel) (hnodes : ∀ next ∈ node :: nodes,
    Plain next) :
    param2listLoop fuel (CoapUrl.more (node :: nodes)) list = .ok (list ++ node :: nodes) := by
  -- Induction over the parameters behind the one at the `&`; each of them takes one round.
  induction nodes generalizing node list fuel with
  | nil =>
    obtain ⟨fuel, rfl⟩ := Nat.exists_eq_add_one_of_ne_zero (Nat.ne_of_gt hfuel)
    have hnode := hnodes node mem_cons_self
    have hnone : strchr 38 (node.data ++ CoapUrl.more []) = none := strchr_more hnode []
    have hadd := addParam_exact hnode list (CoapUrl.more [])
    have htail : (CoapUrl.more [node]).tail = node.data ++ CoapUrl.more [] := rfl
    have hlength : (CoapUrl.more [node]).length - 1 = node.data.length := by simp [CoapUrl.more]
    rw [param2listLoop, htail, hnone, hlength]
    exact hadd
  | cons next nodes ih =>
    obtain ⟨fuel, rfl⟩ := Nat.exists_eq_add_one_of_ne_zero (Nat.ne_zero_of_lt hfuel)
    have hnode := hnodes node mem_cons_self
    have hfound : strchr 38 (node.data ++ CoapUrl.more (next :: nodes)) =
      some (CoapUrl.more (next :: nodes)) :=
      strchr_more hnode (next :: nodes)
    have htail : (CoapUrl.more (node :: next :: nodes)).tail = node.data ++ CoapUrl.more
      (next :: nodes) := rfl
    have hlength : (CoapUrl.more (node :: next :: nodes)).length -
      (CoapUrl.more (next :: nodes)).length - 1 = node.data.length := by
      rw [show CoapUrl.more (node :: next :: nodes) =
        38 :: (node.data ++ CoapUrl.more (next :: nodes)) from rfl, length_cons, length_append]
      omega
    have hmore : ¬(CoapUrl.more (next :: nodes)).tail = [] := by
      simp [CoapUrl.more, ParamNode.data]
    have hrest : param2listLoop fuel (CoapUrl.more (next :: nodes)) (list ++ [node]) = .ok
      (list ++ [node] ++ next :: nodes) :=
      ih (Nat.lt_of_succ_lt_succ hfuel) (forall_mem_cons.1 hnodes).2
    rw [param2listLoop, htail, hfound]
    simp only [hlength, addParam_exact hnode, ok_bind, if_neg hmore, hrest]
    rw [append_assoc]
    rfl

/-- The nodes that the parameters become: an only one gets two bytes too many. -/
def listed : List ParamNode → List ParamNode
  | [node] => [⟨node.n, node.v ++ [0, 0]⟩]
  | nodes => nodes

theorem CoapUrl.length_le_more (nodes : List ParamNode) : nodes.length ≤ (more nodes).length := by
  induction nodes with
  | nil => exact Nat.le_refl _
  | cons node nodes ih =>
    simp only [more, flatMap_cons, length_append, length_cons] at ih ⊢
    omega

theorem newNode_path (value rest : Bytes) :
    newNode path path.length (value ++ rest) value.length = some ⟨path, value⟩ := by
  have hname : strncpy path path.length = path := by
    have h := strncpy_append path []
    rwa [append_nil] at h
  rw [newNode, if_neg (by decide), strncpy_append, hname]

theorem param2list_query (hurl : strchr 47 url =
    some (47 :: (value ++ CoapUrl.query (node :: nodes))))
    (hvalue : 63 ∉ value) (hnodes : ∀ next ∈ node :: nodes, Plain next) :
    param2list url [] = .ok (⟨path, value⟩ :: listed (node :: nodes)) := by
  have hnode := hnodes node mem_cons_self
  have hquery : strchr 63 (value ++ CoapUrl.query (node :: nodes)) =
    some (CoapUrl.query (node :: nodes)) := strchr_at hvalue _
  have hlong : ¬(CoapUrl.query (node :: nodes)).length = 1 := by
    simp [CoapUrl.query, ParamNode.data]
  have hvl : (47 :: (value ++ CoapUrl.query (node :: nodes))).length -
    (CoapUrl.query (node :: nodes)).length - 1 = value.length := by
    rw [length_cons, length_append]
    omega
  have hnext : strchr 38 (CoapUrl.query (node :: nodes)) = nodes.head?.map fun _ =>
    CoapUrl.more nodes := strchr_more hnode nodes
  have htail : (CoapUrl.query (node :: nodes)).tail = node.data ++ CoapUrl.more nodes := rfl
  simp only [param2list, hurl, tail_cons, hquery, if_neg hlong, hvl, newNode_path, paramListAddNode,
    nil_append, hnext, htail]
  cases nodes with
  | nil =>
    have hlength : (CoapUrl.query [node]).length + 1 =
      node.data.length + 2 := by simp [CoapUrl.query, CoapUrl.more]
    have hadd := addParam_data hnode [⟨path, value⟩] (CoapUrl.more []) 2
    rw [show node.v ++ CoapUrl.more [] = node.v from append_nil _, strncpy_longer] at hadd
    simp only [head?_nil, map_none, hlength, hadd]
    rfl
  | cons next nodes =>
    have hlength : (CoapUrl.query (node :: next :: nodes)).length -
      (CoapUrl.more (next :: nodes)).length - 1 = node.data.length := by
      rw [CoapUrl.query, length_cons, length_append]
      omega
    have hloop : param2listLoop (CoapUrl.more (next :: nodes)).length (CoapUrl.more (next :: nodes))
      [⟨path, value⟩, node] = .ok ([⟨path, value⟩, node] ++ next :: nodes) :=
      param2listLoop_more (CoapUrl.length_le_more (next :: nodes)) (forall_mem_cons.1 hnodes).2
    simp only [head?_cons, map_some, hlength, addParam_exact hnode, ok_bind, singleton_append,
      hloop]
    rfl

theorem CoapUrl.plain_of_mem (u : CoapUrl) (hnode : node ∈ u.params) : Plain node := by
  obtain ⟨⟨hne, hn⟩, -, hv⟩ := u.params_valid node hnode
  refine ⟨hne, hn.not_mem (by decide), ?_⟩
  have hname : 38 ∉ node.n := hn.not_mem (by decide)
  have hvalue : 38 ∉ node.v := hv.not_mem (by decide)
  simp [ParamNode.data, hname, hvalue]

theorem param2list_text (u : CoapUrl) : param2list (u.text.drop 7) [] = .ok
    (⟨path, u.path⟩ :: listed u.params) := by
  have hslash : strchr 47 (u.text.drop 7) = some (47 :: (u.path ++ CoapUrl.query u.params)) :=
    u.strchr_slash
  have hpath : 63 ∉ u.path := u.path_valid.2.2.not_mem (by decide)
  have hplain : ∀ node ∈ u.params, Plain node := fun node => u.plain_of_mem
  cases hparams : u.params with
  | nil =>
    rw [hparams] at hslash
    have hnode := newNode_path u.path []
    rw [append_nil] at hnode
    simp only [param2list, hslash, tail_cons, CoapUrl.query, append_nil, strchr_none hpath,
      length_cons, Nat.add_sub_cancel, hnode]
    rfl
  | cons node nodes =>
    rw [hparams] at hslash hplain
    exact param2list_query hslash hpath hplain

theorem coapUrlAnalysis_text {net : Resolver} {u : CoapUrl} :
    coapUrlAnalysis net u.text [] = findIp net u.text >>= fun ip =>
      .ok (if ip = -1 then none else some ⟨ip, defaultPort,
        ⟨path, u.path⟩ :: listed u.params⟩) := by
  have hport : (if Url.toUInt16 0 = 0 then defaultPort else Url.toUInt16 0) = defaultPort := rfl
  simp only [coapUrlAnalysis, isCoap_text, findPort_text, checkPath_text, param2list_text, ok_bind,
    if_true, hport]
  cases findIp net u.text with
  | error e => rfl
  | ok ip =>
    simp only [ok_bind]
    split <;> rfl

theorem listed_eq_iff : listed nodes = nodes ↔ nodes.length ≠ 1 := by
  match nodes with
  | [] => simp [listed]
  | [node] =>
    have h : node.v ++ [0, 0] ≠ node.v := fun h => by
      have hlength := congrArg List.length h
      rw [length_append] at hlength
      simp at hlength
    simp only [listed, List.cons.injEq, and_true, length_singleton, ne_eq, not_true_eq_false,
      iff_false]
    exact fun hnode => h (congrArg ParamNode.v hnode)
  | node :: next :: nodes => simp [listed]

/-- A URL is analysed exactly when its port, if it has one, is the default port, it has not one
parameter only, its host is not the address `255.255.255.255`, and it has a port or no colon behind
the host. -/
theorem analysed_iff {net : Resolver} (hnet : net.Sound) (u : CoapUrl) : Analysed net u ↔
      (∀ digits ∈ u.port, horner digits = defaultPort) ∧ u.params.length ≠ 1 ∧
        u.host ≠ ⟨255, 255, 255, 255⟩ ∧ (u.port = none → 58 ∉ u.place) := by
  have hportNumber : defaultPort = u.portNumber ↔ ∀ digits ∈ u.port,
    horner digits = defaultPort := by
    cases hport : u.port with
    | none => simp [CoapUrl.portNumber, hport]
    | some digits => simp [CoapUrl.portNumber, hport, eq_comm]
  constructor
  · rintro ⟨ip, h⟩
    rw [coapUrlAnalysis_text] at h
    obtain ⟨ip', hfind, h⟩ := bind_eq_ok.1 h
    split at h
    · cases h
    · rename_i hip
      simp only [Except.ok.injEq, some.injEq, Analysis.mk.injEq, List.cons.injEq, true_and] at h
      have hcolon : u.port = none → 58 ∉ u.place :=
        fun hport hcolon => hip (findIp_colon hnet hport hcolon hfind)
      rw [findIp_text hnet hcolon] at hfind
      have hhost : u.host ≠ ⟨255, 255, 255, 255⟩ := fun hhost =>
        hip ((Except.ok.inj hfind).symm.trans ((hnet.values u.host).2 hhost))
      exact ⟨hportNumber.1 h.2.1, listed_eq_iff.1 h.2.2, hhost, hcolon⟩
  · rintro ⟨hport, hparams, hhost, hcolon⟩
    refine ⟨net.charIpTransInt u.host.text, ?_⟩
    rw [coapUrlAnalysis_text, findIp_text hnet hcolon, ok_bind,
      if_neg (mt (hnet.values u.host).1 hhost), listed_eq_iff.2 hparams, hportNumber.2 hport]

def Quad.numbers (quad : Quad) : List Bytes :=
  [decimal quad.a.toNat, decimal quad.b.toNat, decimal quad.c.toNat, decimal quad.d.toNat]

theorem Quad.splitOn_text (quad : Quad) : quad.text.splitOn 46 = quad.numbers := by
  have htext : quad.text = intercalate [46] quad.numbers := by
    simp [Quad.text, Quad.numbers, intercalate]
  rw [htext]
  have hdot (n : Nat) : 46 ∉ decimal n := not_mem_decimal (by decide) n
  refine splitOn_intercalate 46 ?_ (cons_ne_nil _ _)
  simp [Quad.numbers, hdot]

/-- The four numbers are the bytes of an `int`, the first one the lowest. -/
def ipNumber (name : Bytes) : Int :=
  int32 ((name.splitOn 46).foldr (fun digits n => horner digits + 256 * n) 0 : Nat)

theorem Quad.ipNumber_eq_iff (quad : Quad) :
    ipNumber quad.text = -1 ↔ quad = ⟨255, 255, 255, 255⟩ := by
  have hnumber : ipNumber quad.text = int32 ((quad.a.toNat + 256 * (quad.b.toNat +
      256 * (quad.c.toNat + 256 * quad.d.toNat)) : Nat) : Int) := by
    simp [ipNumber, quad.splitOn_text, Quad.numbers, horner_decimal]
  obtain ⟨a, b, c, d⟩ := quad
  have ha := a.toNat_lt
  have hb := b.toNat_lt
  have hc := c.toNat_lt
  have hd := d.toNat_lt
  rw [hnumber, int32, Int.bmod_def]
  simp only [Quad.mk.injEq, ← UInt8.toNat_inj, UInt8.reduceToNat]
  omega

def noNetwork : Resolver where
  isAddress name := 47 ∉ name
  charIpTransInt := ipNumber
  getServerIp _ := none

theorem noNetwork_sound : noNetwork.Sound where
  quads quad := decide_eq_true (quad.not_mem_text (by decide) (by decide))
  values quad := by
    dsimp only [noNetwork]
    exact quad.ipNumber_eq_iff
  slash name h := ⟨decide_eq_false (not_not_intro h), rfl⟩

/-- `coap://1.2.3.4:5683/a?x=1&y=2`. -/
def twoParams : CoapUrl where
  host := ⟨1, 2, 3, 4⟩
  port := some [53, 54, 56, 51]
  path := [97]
  params := [⟨[120], [49]⟩, ⟨[121], [50]⟩]
  port_valid := by simp [isDigit, horner]
  path_valid := by simp [Free]
  params_valid := by simp [Free]

theorem analysed_iff_two_params : noNetwork.Sound ∧ Analysed noNetwork twoParams :=
  ⟨noNetwork_sound, (analysed_iff noNetwork_sound twoParams).2
    ⟨by simp [twoParams, horner, defaultPort], by decide, by decide, by simp [twoParams]⟩⟩

/-- `coap://1.2.3.4:1234/a`. -/
def otherPort : CoapUrl where
  host := ⟨1, 2, 3, 4⟩
  port := some [49, 50, 51, 52]
  path := [97]
  params := []
  port_valid := by simp [isDigit, horner]
  path_valid := by simp [Free]
  params_valid := by simp

/-- The port is not read. -/
theorem port_is_ignored : ¬Analysed noNetwork otherPort := by
  rintro ⟨ip, h⟩
  rw [coapUrlAnalysis_text] at h
  obtain ⟨ip', -, h⟩ := bind_eq_ok.1 h
  split at h
  · cases h
  · have hport : defaultPort = otherPort.portNumber :=
      congrArg Analysis.port (some.inj (Except.ok.inj h))
    exact absurd hport (by decide)

end SwApi.CoapClient
