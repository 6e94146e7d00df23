import Mathlib.Data.List.Forall2
import SwApi.HttpFile.Reply

/-! `sw_httpserver_recv_request_header` of `swhttpserver.c`. What the client sends is the list of
its bytes, of which each `sw_tcp_recv` takes one; at its end `sw_tcp_recv` fails. -/
namespace SwApi.SwHttpServer
open Library HttpFile List
open Url (Free cstr cstr_append cstr_terminated strchr)

variable {f : Bytes × Bytes}

def maxLine : Nat := 1024

/-- `http_request_header_t`: of each array the string in it. -/
structure RequestHeader where
  method : Bytes
  requestUrl : Bytes
  host : Bytes
  acceptType : Bytes
  acceptEncoding : Bytes
  connection : Bytes
  authorization : Bytes
  contentType : Bytes
  contentLength : Int
  headerLength : Nat
deriving DecidableEq

/-- `http_connect_obj_t`, with what is still to be received. -/
structure ConnectObj where
  skt : Bytes
  requestHeader : RequestHeader
  buf : Bytes
deriving DecidableEq

/-- The loop of `get_line`; -1 is the result when nothing is received. -/
def getLineLoop (header : RequestHeader) : Bytes → Bytes → Nat → Nat → Int × ConnectObj
  | [], buf, count, len => (if count = 0 then -1 else count,
    ⟨[], { header with headerLength := len }, buf⟩)
  | c :: skt, buf, count, len =>
      let buf := buf.set count c
      if c = 13 then getLineLoop header skt buf count (len + 1)
      else if c = 10 then (count, ⟨skt, { header with headerLength := len + 1 }, buf.set count 0⟩)
      else getLineLoop header skt buf (if count < maxLine - 1 then count + 1 else count) (len + 1)

def getLine (obj : ConnectObj) : Int × ConnectObj :=
  getLineLoop obj.requestHeader obj.skt obj.buf 0 obj.requestHeader.headerLength

/-- `strtok_r(buf, " ", &last)`: the token, and the buffer with the NUL behind it. -/
def strtok (buf : Bytes) : Option (Bytes × Bytes) :=
  let blanks := (cstr buf).takeWhile (· == 32)
  let p := (cstr buf).drop blanks.length
  let token := p.takeWhile (· != 32)
  if p = [] then none else some (token, buf.set (blanks.length + token.length) 0)

def strlcpy (src : Bytes) (size : Nat) : Bytes := src.take (size - 1)

inductive Field where
  | host
  | accept
  | acceptEncoding
  | contentType
  | contentLength
  | connection
  | authorization
deriving DecidableEq

def Field.all : List Field :=
  [.host, .accept, .acceptEncoding, .contentType, .contentLength, .connection, .authorization]

def Field.name : Field → Bytes
  | host => [72, 111, 115, 116]
  | accept => [65, 99, 99, 101, 112, 116]
  | acceptEncoding => [65, 99, 99, 101, 112, 116, 45, 69, 110, 99, 111, 100, 105, 110, 103]
  | contentType => [67, 111, 110, 116, 101, 110, 116, 45, 84, 121, 112, 101]
  | contentLength => [67, 111, 110, 116, 101, 110, 116, 45, 76, 101, 110, 103, 116, 104]
  | connection => [67, 111, 110, 110, 101, 99, 116, 105, 111, 110]
  | authorization => [65, 117, 116, 104, 111, 114, 105, 122, 97, 116, 105, 111, 110]

def Field.size : Field → Nat
  | host => 128
  | contentLength => maxLine
  | authorization => 256
  | _ => 16

def Field.put (value : Bytes) (h : RequestHeader) : Field → RequestHeader
  | host => { h with host := value }
  | accept => { h with acceptType := value }
  | acceptEncoding => { h with acceptEncoding := value }
  | contentType => { h with contentType := value }
  | contentLength => { h with contentLength := atoi value }
  | connection => { h with connection := value }
  | authorization => { h with authorization := value }

/-- What becomes of the text behind the first blank of the line: a number or a string. -/
def Field.store (p : Bytes) (h : RequestHeader) (f : Field) : RequestHeader :=
  if f = .contentLength then f.put p h else f.put (strlcpy p f.size) h

def get : Bytes := [71, 69, 84]
def post : Bytes := [80, 79, 83, 84]

def verb (line : Bytes) : Bool := beginsWith get line || beginsWith post line

/-- A round of the loop with the line that is in the buffer; `none` when a field without blank is
read from address 1. The second `strtok_r` begins at the buffer again. -/
def parseLine (obj : ConnectObj) : Option ConnectObj :=
  let line := cstr obj.buf
  let h := obj.requestHeader
  if verb line then
    match strtok obj.buf with
    | none => some obj
    | some (p, buf) =>
        let h := { h with method := strlcpy p 8 }
        match strtok buf with
        | none => some { obj with requestHeader := h, buf }
        | some (p, buf) =>
          some { obj with requestHeader := { h with requestUrl := strlcpy p 1024 }, buf }
  else
    match Field.all.find? fun f => beginsWith (f.name ++ [58]) line with
    | none => some obj
    | some f => (strchr 32 line).map fun p => { obj with requestHeader := f.store p.tail h }

def recvLoop : Nat → ConnectObj → Option ConnectObj
  | 0, _ => none
  | fuel+1, obj =>
      let (n, obj) := getLine obj
      if n ≤ 0 then some obj else (parseLine obj).bind (recvLoop fuel)

/-- `sw_httpserver_recv_request_header`; its result is the header length. -/
def recvRequestHeader (obj : ConnectObj) : Option ConnectObj :=
  recvLoop (obj.skt.length + 1) { obj with requestHeader := ⟨[], [], [], [], [], [], [], [], 0, 0⟩ }

structure Request where
  post : Bool
  url : Bytes
  version : Bytes
  fields : List (Bytes × Bytes)

def Request.method (r : Request) : Bytes := if r.post then SwHttpServer.post else get

def Request.requestLine (r : Request) : Bytes := r.method ++ 32 :: (r.url ++ 32 :: r.version)

def fieldLine (f : Bytes × Bytes) : Bytes := f.1 ++ 58 :: 32 :: f.2

def Request.lines (r : Request) : List Bytes := r.requestLine :: r.fields.map fieldLine

structure Request.Valid (r : Request) : Prop where
  url : Free r.url [0, 10, 13, 32]
  version : Free r.version [0, 10, 13]
  names : ∀ f ∈ r.fields, Free f.1 [0, 10, 13, 32, 58]
  values : ∀ f ∈ r.fields, Free f.2 [0, 10, 13]
  short : ∀ l ∈ r.lines, l.length < maxLine
  fits : ∀ f ∈ r.fields, ∀ k : Field, SameName f.1 k.name → f.2.length < k.size

instance (a b : Bytes) : Decidable (SameName a b) := inferInstanceAs (Decidable (_ = _))

def fieldOf (name : Bytes) : Option Field := Field.all.find? fun k => SameName name k.name

/-- The header that a request asks for: the last value of each field that occurs. -/
def Request.wanted (r : Request) : RequestHeader :=
  r.fields.foldl (fun h f => (fieldOf f.1).elim h (Field.put f.2 h))
    ⟨r.method, r.url, [], [], [], [], [], [], 0, 0⟩

def RequestHeader.counted (h : RequestHeader) (n : Nat) : RequestHeader :=
  { h with headerLength := n }

/-- The bytes that bring a line: carriage returns are dropped. -/
def Delivers (raw line : Bytes) : Prop := 10 ∉ raw ∧ raw.filter (· != 13) = line

theorem getLineLoop_eq (h : RequestHeader) (hraw : Delivers raw line) (pre rest skt : Bytes)
    (hrest : line.length < rest.length) (hmax : (pre ++ rest).length = maxLine) (len : Nat) :
    ∃ rest', getLineLoop h (raw ++ 10 :: skt) (pre ++ rest) pre.length len =
      (((pre ++ line).length : Int), ⟨skt, h.counted (len + raw.length + 1),
        pre ++ (line ++ 0 :: rest')⟩) ∧ (pre ++ (line ++ 0 :: rest')).length = maxLine := by
  obtain ⟨hlf, rfl⟩ := hraw
  induction raw generalizing pre rest len with
  | nil =>
    obtain ⟨c, rest, rfl⟩ := exists_cons_of_length_pos hrest
    exact ⟨rest, by simp [getLineLoop, RequestHeader.counted], by simpa using hmax⟩
  | cons c raw ih =>
    simp only [mem_cons, not_or] at hlf
    obtain ⟨x, rest, rfl⟩ := exists_cons_of_length_pos (Nat.zero_lt_of_lt hrest)
    have hset : (pre ++ x :: rest).set pre.length c = pre ++ c :: rest := by simp
    rw [cons_append, getLineLoop, hset, length_cons,
      show len + (raw.length + 1) + 1 = len + 1 + raw.length + 1 by omega]
    by_cases hc : c = 13
    · subst c
      rw [filter_cons_of_neg (by decide)] at hrest ⊢
      rw [if_pos rfl]
      exact ih pre (13 :: rest) (by simpa using hmax) (len + 1) hlf.2 hrest
    · rw [filter_cons_of_pos (by simpa using hc)] at hrest ⊢
      simp only [length_append, length_cons] at hmax hrest
      have hnext := ih (pre ++ [c]) rest (by simp; omega) (len + 1) hlf.2 (by omega)
      simp only [append_assoc, singleton_append, length_append, length_singleton] at hnext
      rw [if_neg hc, if_neg (Ne.symm hlf.1), if_pos (by omega)]
      simpa [Nat.add_assoc, Nat.add_comm 1] using hnext

theorem strtok_eq {token : Bytes} (htoken : Free token [0, 32]) (hne : token ≠ []) (hc : c = 0 ∨
    c = 32) : strtok (token ++ c :: more) = some (token, token ++ 0 :: more) := by
  have hblank : ∀ d ∈ token, (d != 32) = true :=
    fun d hd => bne_iff_ne.2 fun e => htoken d hd (by simp [e])
  obtain ⟨line, hline, htake⟩ : ∃ line, cstr (token ++ c :: more) = token ++ line ∧
    line.takeWhile (· != 32) = [] := by
    refine ⟨cstr (c :: more), cstr_append (htoken.not_mem (by simp)) _, ?_⟩
    rcases hc with rfl | rfl <;> simp [cstr]
  have hfirst : (token ++ line).takeWhile (· == 32) = [] := by
    obtain ⟨d, token, rfl⟩ := exists_cons_of_ne_nil hne
    have hd := bne_iff_ne.1 (hblank d mem_cons_self)
    simp [hd]
  have hset : (token ++ c :: more).set token.length 0 = token ++ 0 :: more := by simp
  unfold strtok
  simp only [hline, hfirst, length_nil, drop_zero, Nat.zero_add, takeWhile_append_of_pos hblank,
    htake, append_nil, hset]
  exact if_neg (append_ne_nil_of_left_ne_nil hne _)

def takeVerb (token : Bytes) (h : RequestHeader) : RequestHeader :=
  { h with method := strlcpy token 8, requestUrl := strlcpy token 1024 }

theorem parseLine_verb {token more : Bytes} (htoken : Free token [0, 32])
    (hne : token ≠ []) (hmore : 0 ∉ more) (hverb : verb (token ++ 32 :: more) = true) :
    parseLine ⟨skt, h, token ++ 32 :: more ++ 0 :: rest⟩ =
      some ⟨skt, takeVerb token h, token ++ 0 :: (more ++ 0 :: rest)⟩ := by
  have hline : 0 ∉ token ++ 32 :: more := by simp [htoken.not_mem, hmore]
  rw [parseLine]
  simp only [cstr_terminated hline]
  rw [if_pos hverb, append_assoc, cons_append, strtok_eq htoken hne (.inr rfl)]
  simp only [strtok_eq htoken hne (.inl rfl)]
  rfl

theorem Field.name_free (k : Field) : 58 ∉ k.name.map CString.tolower := by
  cases k <;> decide

theorem beginsWith_field (hf : 58 ∉ f.1) {k : Field} :
    beginsWith (k.name ++ [58]) (fieldLine f) = decide (SameName f.1 k.name) := by
  rw [Bool.eq_iff_iff, decide_eq_true_iff]
  refine ⟨sameName_of_beginsWith (f := (f.1, 32 :: f.2)) hf k.name_free, fun hsame => ?_⟩
  have hlength : (k.name ++ [58]).length = (f.1 ++ [58]).length := by
    have := congrArg List.length hsame
    simpa using this.symm
  rw [beginsWith, hlength, fieldLine, show f.1 ++ 58 :: 32 :: f.2 =
    (f.1 ++ [58]) ++ 32 :: f.2 by simp, take_left, beq_iff_eq, map_append, map_append, hsame]

theorem parseLine_field {skt rest : Bytes} {h : RequestHeader}
    (hname : Free f.1 [0, 10, 13, 32, 58])
    (hvalue : Free f.2 [0, 10, 13]) (hverb : verb (fieldLine f) = false) :
    parseLine ⟨skt, h, fieldLine f ++ 0 :: rest⟩ =
      some ⟨skt, (fieldOf f.1).elim h (Field.store f.2 h), fieldLine f ++ 0 :: rest⟩ := by
  have hline : 0 ∉ fieldLine f := by
    simp [fieldLine, hname.not_mem, hvalue.not_mem]
  have hblank : strchr 32 (fieldLine f) = some (32 :: f.2) := by
    rw [fieldLine, Url.strchr_append (hname.not_mem (by simp))]
    rfl
  rw [parseLine]
  simp only [cstr_terminated hline, beginsWith_field (hname.not_mem (c := 58) (by simp))]
  rw [if_neg (Bool.eq_false_iff.1 hverb), ← fieldOf]
  cases fieldOf f.1 with
  | none => rfl
  | some k => simp only [hblank]; rfl

def takeField (h : RequestHeader) (f : Bytes × Bytes) : RequestHeader :=
  if verb (fieldLine f) then takeVerb (f.1 ++ [58]) h
  else (fieldOf f.1).elim h (Field.store f.2 h)

theorem parseLine_takeField (skt rest : Bytes) (h : RequestHeader)
    (hname : Free f.1 [0, 10, 13, 32, 58]) (hvalue : Free f.2 [0, 10, 13]) :
    ∃ buf, parseLine ⟨skt, h, fieldLine f ++ 0 :: rest⟩ = some ⟨skt, takeField h f, buf⟩ ∧
      buf.length = (fieldLine f ++ 0 :: rest).length := by
  rw [takeField]
  cases hverb : verb (fieldLine f) with
  | false => exact ⟨_, parseLine_field hname hvalue hverb, rfl⟩
  | true =>
    have hline : fieldLine f = (f.1 ++ [58]) ++ 32 :: f.2 := by simp [fieldLine]
    have htoken : Free (f.1 ++ [58]) [0, 32] := (hname.mono (by simp)).append (by simp [Free])
    rw [hline] at hverb ⊢
    exact ⟨_, parseLine_verb htoken (by simp) (hvalue.not_mem (by simp)) hverb, by simp⟩

theorem recvLoop_line {h h' : RequestHeader} (hraw : Delivers raw line) (hne : line ≠ [])
    (hshort : line.length < maxLine) (skt : Bytes) (hbuf : buf.length = maxLine)
    (hparse : ∀ rest, ∃ buf', parseLine ⟨skt, h.counted (h.headerLength + raw.length + 1),
    line ++ 0 :: rest⟩ =
      some ⟨skt, h', buf'⟩ ∧ buf'.length = (line ++ 0 :: rest).length) (fuel : Nat) :
    ∃ buf', recvLoop (fuel + 1) ⟨raw ++ 10 :: skt, h, buf⟩ = recvLoop fuel ⟨skt, h', buf'⟩ ∧
    buf'.length = maxLine := by
  obtain ⟨rest, hline, hlength⟩ := getLineLoop_eq h hraw [] buf skt (by omega) hbuf h.headerLength
  obtain ⟨buf', hparse, hbuf'⟩ := hparse rest
  have hpos := length_pos_of_ne_nil hne
  refine ⟨buf', ?_, hbuf'.trans hlength⟩
  rw [recvLoop, getLine]
  simp only [nil_append, length_nil] at hline
  simp only [hline]
  rw [if_neg (by omega), hparse]
  rfl

theorem takeField_counted : takeField (h.counted n) f = (takeField h f).counted n := by
  unfold takeField
  split
  · rfl
  · cases fieldOf f.1 with
    | none => rfl
    | some k => cases k <;> rfl

theorem foldl_takeField_counted {fields : List (Bytes × Bytes)} {h : RequestHeader} {n : Nat} :
    fields.foldl takeField (h.counted n) = (fields.foldl takeField h).counted n := by
  induction fields generalizing h with
  | nil => rfl
  | cons f fields ih => rw [foldl_cons, takeField_counted, ih, foldl_cons]

theorem recvLoop_fields (blank body : Bytes) (hblank : Delivers blank [])
    (hraws : Forall₂ (fun raw f => Delivers raw (fieldLine f)) raws fields)
    (hfields : ∀ f ∈ fields, Free f.1 [0, 10, 13, 32, 58] ∧ Free f.2 [0, 10, 13] ∧
    (fieldLine f).length < maxLine)
    (hbuf : buf.length = maxLine) (hfuel : raws.length < fuel) (h : RequestHeader) :
    ∃ buf', recvLoop fuel ⟨raws.flatMap (· ++ [10]) ++ (blank ++ 10 :: body), h, buf⟩ =
      some ⟨body, (fields.foldl takeField h).counted
        (h.headerLength + (raws.flatMap (· ++ [10]) ++ blank).length + 1), buf'⟩ := by
  induction hraws generalizing fuel buf h with
  | nil =>
    obtain ⟨fuel, rfl⟩ : ∃ k, fuel = k + 1 := ⟨fuel - 1, by simp at hfuel; omega⟩
    obtain ⟨rest, hline, -⟩ :=
      getLineLoop_eq h hblank [] buf body (by rw [hbuf]; decide) hbuf h.headerLength
    refine ⟨0 :: rest, ?_⟩
    rw [recvLoop, getLine]
    simp only [flatMap_nil, nil_append, length_nil] at hline ⊢
    simp only [hline]
    rfl
  | @cons raw f raws fields hraw _ ih =>
    obtain ⟨fuel, rfl⟩ : ∃ k, fuel = k + 1 := ⟨fuel - 1, by simp at hfuel; omega⟩
    obtain ⟨hname, hvalue, hshort⟩ := hfields f mem_cons_self
    obtain ⟨buf₁, hround, hbuf₁⟩ := recvLoop_line hraw (by simp [fieldLine]) hshort
      (raws.flatMap (· ++ [10]) ++ (blank ++ 10 :: body)) hbuf
        (fun rest => parseLine_takeField _ rest _ hname hvalue) fuel
    obtain ⟨buf', hloop⟩ := ih (forall_mem_cons.1 hfields).2 hbuf₁ (Nat.lt_of_succ_lt_succ hfuel)
      (takeField (h.counted (h.headerLength + raw.length + 1)) f)
    refine ⟨buf', ?_⟩
    have hlength : h.headerLength + raw.length + 1 + (raws.flatMap (· ++ [10]) ++ blank).length +
      1 = h.headerLength + (raw ++ [10] ++ raws.flatMap (· ++ [10]) ++ blank).length + 1 := by
      simp
      omega
    rw [flatMap_cons, append_assoc, append_assoc, singleton_append, hround, hloop,
      takeField_counted, foldl_takeField_counted, ← hlength]
    rfl

theorem length_le_flatMap (raws : List Bytes) :
    raws.length ≤ (raws.flatMap (· ++ [10])).length := by
  induction raws with
  | nil => exact Nat.le_refl 0
  | cons raw raws ih =>
    simp only [flatMap_cons, length_append, length_cons]
    omega

theorem recvRequestHeader_eq {r : Request} (hr : r.Valid) (hraws : Forall₂ Delivers raws r.lines)
    (hblank : Delivers blank []) (body : Bytes) (header : RequestHeader)
    (hbuf : buf.length = maxLine) : ∃ buf',
    recvRequestHeader ⟨raws.flatMap (· ++ [10]) ++ (blank ++ 10 :: body), header, buf⟩ =
      some ⟨body, (r.fields.foldl takeField
        ⟨r.method, r.method, [], [], [], [], [], [], 0, 0⟩).counted
        ((raws.flatMap (· ++ [10]) ++ blank).length + 1), buf'⟩ := by
  cases hraws with
  | @cons raw _ raws _ hraw hraws =>
    rw [forall₂_map_right_iff] at hraws
    have hmethod : Free r.method [0, 32] ∧ r.method ≠ [] ∧ verb r.requestLine = true ∧
      strlcpy r.method 8 = r.method ∧ strlcpy r.method 1024 = r.method := by
      rw [Request.requestLine, Request.method]
      cases r.post
      · exact ⟨by simp [Free, get], by decide, rfl, rfl, rfl⟩
      · exact ⟨by simp [Free, post], by decide, rfl, rfl, rfl⟩
    have hmore : 0 ∉ r.url ++ 32 :: r.version := by
      simp [hr.url.not_mem, hr.version.not_mem]
    generalize hskt : raws.flatMap (· ++ [10]) ++ (blank ++ 10 :: body) = skt
    have hfuel : raws.length < raw.length + 1 + skt.length := by
      have := length_le_flatMap raws
      rw [← hskt, length_append]
      omega
    obtain ⟨buf₁, hround, hbuf₁⟩ := recvLoop_line (h := ⟨[], [], [], [], [], [], [], [], 0, 0⟩) hraw
      (append_ne_nil_of_left_ne_nil hmethod.2.1 _) (hr.short _ mem_cons_self)
      skt hbuf (fun rest => ⟨_, parseLine_verb hmethod.1 hmethod.2.1 hmore hmethod.2.2.1,
        by simp [Request.requestLine]⟩)
      (raw.length + 1 + skt.length)
    obtain ⟨buf', hloop⟩ := recvLoop_fields blank body hblank hraws
      (fun f hf => ⟨hr.names f hf, hr.values f hf,
        hr.short _ (mem_cons_of_mem _ (mem_map_of_mem hf))⟩) hbuf₁
      hfuel (takeVerb r.method (RequestHeader.counted ⟨[], [], [], [], [], [], [], [], 0, 0⟩
        (0 + raw.length + 1)))
    rw [hskt] at hloop
    have hlength : 0 + raw.length + 1 + (raws.flatMap (· ++ [10]) ++ blank).length + 1 =
        (raw ++ [10] ++ raws.flatMap (· ++ [10]) ++ blank).length + 1 := by
      simp
      omega
    have hsize : (raw ++ 10 :: skt).length + 1 = raw.length + 1 + skt.length + 1 := by
      simp
      omega
    have hfirst : takeVerb r.method (RequestHeader.counted ⟨[], [], [], [], [], [], [], [], 0, 0⟩
      (0 + raw.length + 1)) =
        RequestHeader.counted ⟨r.method, r.method, [], [], [], [], [], [], 0, 0⟩
          (0 + raw.length + 1) := by
      rw [takeVerb, hmethod.2.2.2.1, hmethod.2.2.2.2]
      rfl
    refine ⟨buf', ?_⟩
    rw [recvRequestHeader, flatMap_cons, append_assoc, append_assoc, singleton_append, hskt, hsize]
    refine hround.trans ?_
    rw [hloop, hfirst, foldl_takeField_counted, ← hlength]
    rfl

/-- The fields without a method at their beginning leave method and url alone; the last one with it
replaces both. -/
theorem takeField_method (fields : List (Bytes × Bytes)) (h : RequestHeader) :
    ((∀ f ∈ fields, verb (fieldLine f) = false) ∧ (fields.foldl takeField h).method = h.method ∧
      (fields.foldl takeField h).requestUrl = h.requestUrl) ∨
    ∃ f : Bytes × Bytes, (fields.foldl takeField h).method = strlcpy (f.1 ++ [58]) 8 := by
  induction fields generalizing h with
  | nil => exact .inl ⟨by simp, rfl, rfl⟩
  | cons f fields ih =>
    rw [foldl_cons]
    rcases ih (takeField h f) with ⟨hnone, hmethod, hurl⟩ | hlast
    · rw [hmethod, hurl, takeField]
      cases hverb : verb (fieldLine f) with
      | true => exact .inr ⟨f, rfl⟩
      | false =>
        refine .inl ⟨by simpa [hverb] using hnone, ?_⟩
        cases fieldOf f.1 with
        | none => exact ⟨rfl, rfl⟩
        | some k => cases k <;> exact ⟨rfl, rfl⟩
    · exact .inr hlast

/-- What ends in a colon is no method, even cut. -/
theorem Request.method_ne (r : Request) (name : Bytes) : strlcpy (name ++ [58]) 8 ≠ r.method := by
  intro h
  have hcolon : ∀ m : Bytes, m.getLast? ≠ some 58 → m.length < 7 →
    strlcpy (name ++ [58]) 8 ≠ m := by
    rintro m hlast hm rfl
    rw [strlcpy, length_take] at hm
    rw [strlcpy, take_of_length_le (by omega)] at hlast
    exact hlast (by simp)
  rw [Request.method] at h
  split at h <;> exact hcolon _ (by decide) (by decide) h

theorem wanted_method (fields : List (Bytes × Bytes)) (h : RequestHeader) :
    (fields.foldl (fun h f => (fieldOf f.1).elim h (Field.put f.2 h)) h).method =
      h.method ∧
    (fields.foldl (fun h f => (fieldOf f.1).elim h (Field.put f.2 h)) h).requestUrl =
      h.requestUrl := by
  induction fields generalizing h with
  | nil => exact ⟨rfl, rfl⟩
  | cons f fields ih =>
    rw [foldl_cons, (ih _).1, (ih _).2]
    cases fieldOf f.1 with
    | none => exact ⟨rfl, rfl⟩
    | some k => cases k <;> exact ⟨rfl, rfl⟩

/-- The number of bytes is right and the body is left alone, whatever the request is; the header
is what the request asks for exactly when its url is its method and no name of a field begins with
a method. -/
theorem header_received_iff {r : Request} (hr : r.Valid) (raws : List Bytes)
    (blank body buf : Bytes)
    (header : RequestHeader) (hraws : Forall₂ Delivers raws r.lines) (hblank : Delivers blank [])
    (hbuf : buf.length = maxLine) :
    ∃ h buf', recvRequestHeader ⟨raws.flatMap (· ++ [10]) ++ (blank ++ 10 :: body), header, buf⟩ =
      some ⟨body, h, buf'⟩ ∧ h.headerLength = (raws.flatMap (· ++ [10]) ++ (blank ++ [10])).length ∧
      (h = r.wanted.counted h.headerLength ↔ r.url = r.method ∧
      ∀ f ∈ r.fields, verb (fieldLine f) = false) := by
  obtain ⟨buf', hrecv⟩ := recvRequestHeader_eq hr hraws hblank body header hbuf
  refine ⟨_, buf', hrecv, by simp [RequestHeader.counted, Nat.add_assoc], ?_⟩
  constructor
  · intro heq
    have hmethod := congrArg RequestHeader.method heq
    have hurl := congrArg RequestHeader.requestUrl heq
    have hwanted := wanted_method r.fields ⟨r.method, r.url, [], [], [], [], [], [], 0, 0⟩
    rcases takeField_method r.fields ⟨r.method, r.method, [], [], [], [], [], [], 0,
      0⟩ with ⟨hnone, -, hsame⟩ | ⟨f, hlast⟩
    · exact ⟨(hsame.symm.trans (hurl.trans hwanted.2)).symm, hnone⟩
    · exact absurd (hlast.symm.trans (hmethod.trans hwanted.1)) (r.method_ne f.1)
  · rintro ⟨hurl, hnone⟩
    have hfold : r.fields.foldl takeField ⟨r.method, r.method, [], [], [], [], [], [], 0, 0⟩ =
      r.wanted := by
      rw [Request.wanted, hurl]
      apply foldl_ext
      intro h f hf
      rw [takeField, hnone f hf, if_neg Bool.false_ne_true]
      cases hfind : fieldOf f.1 with
      | none => rfl
      | some k =>
        have hsame := find?_some hfind
        have hfits := hr.fits f hf k (of_decide_eq_true hsame)
        simp [Field.store, strlcpy, take_of_length_le (Nat.le_sub_one_of_lt hfits)]
    rw [hfold]
    rfl

/-- "GET GET HTTP/1.1" and "Host: a", and a body of one byte. -/
theorem header_received_iff_host : ∃ h buf', recvRequestHeader
    ⟨[71, 69, 84, 32, 71, 69, 84, 32, 72, 84, 84, 80, 47, 49, 46, 49, 13, 10, 72, 111, 115, 116, 58,
    32, 97, 13, 10,
      13, 10, 98], ⟨[], [], [], [], [], [], [], [], 0, 0⟩, replicate maxLine 0⟩ =
    some ⟨[98], h, buf'⟩ ∧ h = ⟨get, get, [97], [], [], [], [], [], 0, 29⟩ := by
  have hvalid : Request.Valid ⟨false, get, [72, 84, 84, 80, 47, 49, 46, 49],
    [(Field.host.name, [97])]⟩ := by
    refine ⟨by simp [Free, get], by simp [Free], by simp [Free,
      Field.name], by simp [Free], by decide, ?_⟩
    intro f hf k _
    rw [mem_singleton.1 hf]
    cases k <;> decide
  obtain ⟨h, buf', hrecv, hlength, hiff⟩ := header_received_iff hvalid
    [[71, 69, 84, 32, 71, 69, 84, 32, 72, 84, 84, 80, 47, 49, 46, 49, 13],
      [72, 111, 115, 116, 58, 32, 97, 13]]
    [13] [98] (replicate maxLine 0) ⟨[], [], [], [], [], [], [], [], 0, 0⟩
    (.cons ⟨by decide, by decide⟩ (.cons ⟨by decide, by decide⟩ .nil))
      ⟨by decide, by decide⟩ length_replicate
  refine ⟨h, buf', hrecv, ?_⟩
  rw [hiff.2 ⟨rfl, by decide⟩, hlength]
  decide

/-- "GET / HTTP/1.1" is stored with the url "GET". -/
theorem url_is_method : ∃ obj ∈ recvRequestHeader
    ⟨[71, 69, 84, 32, 47, 32, 72, 84, 84, 80, 47, 49, 46, 49, 13, 10, 13, 10],
    ⟨[], [], [], [], [], [], [], [], 0, 0⟩,
      replicate maxLine 0⟩, obj.requestHeader = ⟨get, get, [], [], [], [], [], [], 0, 18⟩ := by
  decide +kernel

end SwApi.SwHttpServer
