import SwApi.HttpFile.Stream

/-! Bodies in chunks, however the receives cut them. -/
namespace SwApi.HttpFile
open Library List

structure SizeLine where
  digits : Bytes
  ext : Bytes
  digits_ne_nil : digits ≠ []
  digits_hex : ∀ c ∈ digits, Url.isHex c = true
  ext_free : 13 ∉ ext
  ext_head : ∀ c ∈ ext.head?, Url.isHex c = false

def SizeLine.text (s : SizeLine) : Bytes := s.digits ++ s.ext

def SizeLine.size (s : SizeLine) : Nat := hexValue s.digits

structure Chunk where
  line : SizeLine
  data : Bytes
  data_ne_nil : data ≠ []
  size_eq : line.size = data.length

def Chunk.text (c : Chunk) : Bytes := c.line.text ++ 13 :: 10 :: (c.data ++ [13, 10])

/-- A body in chunks; `tail` is what follows the last line, which has size 0. -/
structure Encoded where
  chunks : List Chunk
  last : SizeLine
  tail : Bytes
  last_size : last.size = 0

def Encoded.body (e : Encoded) : Bytes := e.chunks.flatMap Chunk.data

def Encoded.text (e : Encoded) : Bytes :=
  e.chunks.flatMap Chunk.text ++ (e.last.text ++ 13 :: 10 :: e.tail)

def Encoded.next (e : Encoded) (chunks : List Chunk) : Encoded := { e with chunks := chunks }

/-- The line fits into `tmp_buf` with its line break, and the size into an `int`. -/
structure SizeLine.Short (s : SizeLine) : Prop where
  length : s.text.length + 2 ≤ maxPacketSize
  size : s.size < 2 ^ 31

structure Encoded.Short (e : Encoded) : Prop where
  chunks : ∀ c ∈ e.chunks, c.line.Short
  last : e.last.Short

section
variable {s : SizeLine}

theorem isHex_not_blank (h : Url.isHex c = true) : isBlank c = false := by
  cases hb : isBlank c with
  | false => rfl
  | true =>
    simp only [isBlank, Bool.or_eq_true, beq_iff_eq] at hb
    rcases hb with rfl | rfl <;> exact absurd h (by decide)

theorem SizeLine.text_free (s : SizeLine) : 13 ∉ s.text := by
  intro h
  rcases mem_append.1 h with h | h
  · exact absurd (s.digits_hex 13 h) (by decide)
  · exact s.ext_free h

theorem SizeLine.strhex (hs : s.size < 2 ^ 63) (rest : Bytes) :
    strhexInt64 (s.text ++ 13 :: rest) = .ok (s.size : Int) := by
  have hblank : (s.text ++ 13 :: rest).dropWhile isBlank = s.text ++ 13 :: rest := by
    obtain ⟨c, t, hd⟩ := exists_cons_of_ne_nil s.digits_ne_nil
    have hc := isHex_not_blank (s.digits_hex c (by rw [hd]; exact mem_cons_self))
    rw [SizeLine.text, hd, cons_append, cons_append, dropWhile_cons, hc]
    rfl
  have hspan : (s.text ++ 13 :: rest).takeWhile Url.isHex = s.digits := by
    have hstop : (s.ext ++ 13 :: rest).takeWhile Url.isHex = [] := by
      cases he : s.ext with
      | nil => rfl
      | cons c ext =>
        have hc := s.ext_head c (by rw [he]; rfl)
        rw [cons_append, takeWhile_cons, hc]
        rfl
    rw [SizeLine.text, append_assoc, takeWhile_append_of_pos s.digits_hex, hstop, append_nil]
  rw [strhexInt64, hblank, hspan, int64]
  have hvalue : (hexValue s.digits : Int) < 2 ^ 63 := by
    rw [SizeLine.size] at hs
    exact_mod_cast hs
  exact if_pos ⟨by omega, hvalue⟩

theorem findCrlf_none (h : 13 ∉ t) (hp : p ++ missing = t ++ [13, 10]) (hmissing : missing ≠ []) :
    findCrlf p = none := by
  induction p generalizing t with
  | nil => rfl
  | cons c p ih =>
    cases t with
    | nil =>
      cases p with
      | nil => simp [findCrlf]
      | cons d p =>
        simp only [cons_append, nil_append, List.cons.injEq] at hp
        exact absurd (append_eq_nil_iff.1 hp.2.2).2 hmissing
    | cons d t =>
      simp only [cons_append, List.cons.injEq] at hp
      obtain ⟨rfl, hp⟩ := hp
      have hc : ¬(c = 13 ∧ p.head? = some 10) := fun hc => h (hc.1 ▸ mem_cons_self)
      rw [findCrlf, if_neg hc, ih (fun hmem => h (mem_cons_of_mem _ hmem)) hp]
      rfl

end

section
variable {http : SwHttpfile} {s : SizeLine} {l : Line UInt8}

theorem recv_one (hflows : l.Flows) (hbytes : l.bytes = c :: more) :
    (l.recv 1).1 = [c] ∧ (l.recv 1).2.bytes = more := by
  have hne := Line.recv_ne_nil hflows.head Nat.one_pos (by rw [hbytes]; exact cons_ne_nil _ _)
  have hlen := l.recv_length 1
  have happend := l.recv_append 1
  rw [hbytes] at happend
  obtain ⟨d, t, hd⟩ := exists_cons_of_ne_nil hne
  rw [hd, length_cons] at hlen
  obtain rfl : t = [] := length_eq_zero_iff.1 (by omega)
  rw [hd] at happend
  obtain ⟨rfl, hmore⟩ := List.cons.inj happend
  exact ⟨hd, hmore⟩

theorem recvByte_eq (hl : http.httpclient = some l) (hflows : l.Flows)
    (hbytes : l.bytes = c :: more) : recvByte 10 http = (true, { http with
      httpclient := some (l.recv 1).2, tmpBuf := write http.tmpBuf http.tmpDataSize [c] }) := by
  have hrecv : recvData http 1 = ([c], { http with httpclient := some (l.recv 1).2 }) := by
    rw [recvData, hl]
    dsimp only
    rw [(recv_one hflows hbytes).1]
  rw [recvByte, hrecv]
  rfl

theorem SwHttpfile.Ready.write_tmp (hready : http.Ready) (c : UInt8) :
    (write http.tmpBuf http.tmpDataSize [c]).take (http.tmpDataSize + 1) = http.tmp ++ [c] :=
  write_take (s := [c]) (hready.fits.trans_eq hready.size.symm)

theorem moved_took (hready : http.Ready) (hroom : http.tmpDataSize < maxPacketSize)
    (hl : http.httpclient = some l) (hflows : l.Flows) (hbytes : l.bytes = c :: more) :
    let http' := { http with
      httpclient := some (l.recv 1).2, tmpBuf := write http.tmpBuf http.tmpDataSize [c]
      tmpDataSize := http.tmpDataSize + 1 }
    Took http [] http' ∧ http'.tmp = http.tmp ++ [c] := by
  have hsize := hready.size
  refine ⟨⟨?_, rfl, by rw [hl]; rfl, ⟨?_, hroom⟩, ?_⟩, hready.write_tmp c⟩
  · rw [SwHttpfile.stream, SwHttpfile.stream, SwHttpfile.tmp, SwHttpfile.tmp, hready.write_tmp, hl]
    dsimp only [Option.elim]
    rw [(recv_one hflows hbytes).2, hbytes, SwHttpfile.tmp]
    simp
  · dsimp only
    rw [write_length (by rw [length_singleton]; omega), hsize]
  · rintro - l' ⟨⟩
    exact hflows.recv 1

theorem write_get (hready : http.Ready) (hk : k ≤ http.tmpDataSize) :
    (write http.tmpBuf http.tmpDataSize [c])[k]? = (http.tmp ++ [c])[k]? := by
  rw [← hready.write_tmp, getElem?_take_of_lt (by omega)]

theorem line_missing (htext : http.tmp ++ missing = t) (hstream : http.stream = t ++ more) :
    http.httpclient.elim [] Line.bytes = missing ++ more := by
  rw [← htext, append_assoc] at hstream
  exact append_cancel_left hstream

theorem lineLoop_took (ht : 13 ∉ t) (hready : http.Ready)
    (hflows : http.Flows) (htext : http.tmp ++ missing = t ++ [13, 10]) (hmissing : missing ≠ [])
    (hstream : http.stream = (t ++ [13, 10]) ++ more) (hroom : missing.length ≤ room)
    (hfits : t.length + 2 ≤ maxPacketSize) :
    ∃ http', lineLoop room http = (true, http') ∧ Took http [] http' ∧
    http'.tmp = t ++ [13, 10] := by
  induction missing generalizing http room with
  | nil => exact absurd rfl hmissing
  | cons c missing ih =>
    obtain ⟨room, rfl⟩ : ∃ r, room = r + 1 := ⟨room - 1, by rw [length_cons] at hroom; omega⟩
    have hlen := congrArg List.length htext
    have htmp := hready.tmp_length
    simp only [length_append, length_cons, length_nil] at hlen
    obtain ⟨l, hl, hline⟩ := line_of_bytes (line_missing htext hstream) (cons_ne_nil _ _)
    have hroom' : http.tmpDataSize < maxPacketSize := by omega
    obtain ⟨htook, hnext⟩ := moved_took hready hroom' hl (hflows l hl) hline
    have htext' : http.tmp ++ [c] ++ missing = t ++ [13, 10] := by
      rw [← htext]
      simp
    rw [lineLoop, recvByte_eq hl (hflows l hl) hline]
    dsimp only
    rw [if_pos rfl, write_get hready (Nat.sub_le _ _), write_get hready le_rfl]
    cases missing with
    | nil =>
      -- the last byte has come
      rw [append_nil] at htext'
      have hpair : 1 ≤ http.tmpDataSize ∧ (http.tmp ++ [c])[http.tmpDataSize - 1]? = some 13 ∧
          (http.tmp ++ [c])[http.tmpDataSize]? = some 10 := by
        have hn : http.tmpDataSize = t.length + 1 := by
          simp only [length_nil] at hlen
          omega
        rw [htext', hn]
        simp
      rw [if_pos hpair]
      exact ⟨_, rfl, htook, hnext.trans htext'⟩
    | cons d missing =>
      have hpair : ¬(1 ≤ http.tmpDataSize ∧ (http.tmp ++ [c])[http.tmpDataSize - 1]? = some 13 ∧
          (http.tmp ++ [c])[http.tmpDataSize]? = some 10) := by
        rintro ⟨hpos, hcr, -⟩
        rw [length_cons] at hlen
        have hin : (http.tmp ++ [c] ++ d :: missing)[http.tmpDataSize - 1]? = some 13 := by
          rw [getElem?_append_left (by rw [length_append, length_singleton]; omega), hcr]
        rw [htext', getElem?_append_left (by omega)] at hin
        exact ht (mem_of_getElem? hin)
      rw [if_neg hpair]
      have hstream' := htook.stream
      rw [nil_append] at hstream'
      obtain ⟨http', hloop, htook', htmp'⟩ := ih htook.ready (htook.flows hflows)
        (by rw [hnext, htext']) (cons_ne_nil _ _) (hstream'.symm.trans hstream)
        (show (d :: missing).length ≤ room by rw [length_cons] at hroom; omega)
      exact ⟨http', hloop, htook.trans htook', htmp'⟩

theorem recvLine_took (hs : s.Short) (hready : http.Ready) (hflows : http.Flows)
    (hstream : http.stream = s.text ++ 13 :: 10 :: more) :
    ∃ http', recvLine http = .ok (true, { http' with chunksize := (s.size : Int) }) ∧
      Took http (s.text ++ [13, 10]) http' := by
  have hfree := s.text_free
  have hlen := hready.tmp_length
  have hfits := hs.length
  have hstream' : http.stream = (s.text ++ [13, 10]) ++ more := by
    rw [hstream]
    simp
  have hsize : s.size < 2 ^ 63 := hs.size.trans (by decide)
  have hint : int32 s.size = s.size := by
    have := hs.size
    exact int32_eq (by omega) (by omega)
  have hvalue {buf : Bytes} {rest : Bytes} (hbuf : buf = (s.text ++ [13, 10]) ++ rest) :
      strhexInt64 buf = .ok (s.size : Int) := by
    rw [hbuf, append_assoc]
    exact s.strhex hsize _
  rcases Nat.lt_or_ge http.tmpDataSize (s.text.length + 2) with hshort | hlong
  · -- bytes of the line are still to come
    obtain ⟨missing, hmissing⟩ : http.tmp <+: s.text ++ [13, 10] := by
      refine prefix_of_prefix_length_le ⟨http.httpclient.elim [] Line.bytes, rfl⟩
        ⟨more, hstream'.symm⟩ ?_
      rw [length_append, hlen]
      exact hshort.le
    have hcount := congrArg List.length hmissing
    simp only [length_append, length_cons, length_nil, hlen] at hcount
    have hne : missing ≠ [] := by
      rintro rfl
      simp only [length_nil] at hcount
      omega
    obtain ⟨http', hloop, htook, htmp⟩ := lineLoop_took hfree hready hflows hmissing hne hstream'
      (show missing.length ≤ maxPacketSize - http.tmpDataSize by omega) hfits
    have hbuf : http'.tmpBuf = (s.text ++ [13, 10]) ++ http'.tmpBuf.drop http'.tmpDataSize := by
      rw [← htmp, SwHttpfile.tmp, take_append_drop]
    have hdrop := clearTmp_took htook.ready
    rw [htmp] at hdrop
    refine ⟨{ http' with tmpDataSize := 0 }, ?_, htook.trans hdrop⟩
    rw [recvLine, findCrlf_none hfree hmissing hne]
    dsimp only
    rw [hloop]
    dsimp only
    rw [if_pos rfl, hvalue hbuf, ok_bind, hint]
  · -- the whole line is there
    obtain ⟨x, hx⟩ : s.text ++ [13, 10] <+: http.tmp := by
      refine prefix_of_prefix_length_le ⟨more, hstream'.symm⟩ ⟨http.httpclient.elim [] Line.bytes,
        rfl⟩ ?_
      rw [length_append, hlen]
      exact hlong
    have hfound : findCrlf http.tmp = some s.text.length := by
      rw [← hx, append_assoc]
      exact findCrlf_line hfree x
    have hbuf : http.tmpBuf = (s.text ++ [13, 10]) ++ (x ++ http.tmpBuf.drop http.tmpDataSize) := by
      rw [← append_assoc, hx, SwHttpfile.tmp, take_append_drop]
    have htook := dropTmp_took hready hlong
    have htake : http.tmp.take (s.text.length + 2) = s.text ++ [13, 10] := by
      rw [← hx]
      exact take_left' (by simp)
    rw [htake] at htook
    refine ⟨_, ?_, htook⟩
    rw [recvLine, hfound]
    dsimp only
    rw [hvalue hbuf, ok_bind, hint]

theorem crlfLoop_eq (hl : http.httpclient = some l) (hflows : l.Flows) (hi : 0 < i) (hi2 : i ≤ 2)
    (hx : x.length = i) (hbytes : l.bytes = x ++ more) (hfuel : i ≤ fuel)
    (hsize : i ≤ http.tmpBuf.length) :
    ∃ l' buf, crlfLoop fuel http i 0 = (true, { http with httpclient := some l', tmpBuf := buf }) ∧
      l'.bytes = more ∧ l'.Flows ∧ buf.length = http.tmpBuf.length := by
  induction i using Nat.strong_induction_on generalizing http l fuel x with
  | _ i ih =>
    obtain ⟨fuel, rfl⟩ : ∃ f, fuel = f + 1 := ⟨fuel - 1, by omega⟩
    have hne : l.bytes ≠ [] := by
      rw [hbytes]
      exact append_ne_nil_of_left_ne_nil (length_pos_iff.1 (by omega)) _
    have hsome := length_pos_iff.2 (Line.recv_ne_nil hflows.head hi hne)
    have hle := l.recv_length i
    have happend := l.recv_append i
    have hflows' := hflows.recv i
    have hrecv : recvData http i = ((l.recv i).1,
      { http with httpclient := some (l.recv i).2 }) := by
      rw [recvData, hl]
    rw [crlfLoop, if_pos (by omega), hrecv]
    generalize l.recv i = r at hsome hle happend hflows' ⊢
    obtain ⟨r, l'⟩ := r
    dsimp only at hsome hle happend hflows' ⊢
    have hwrite : (write http.tmpBuf 0 r).length = http.tmpBuf.length := write_length (by omega)
    rw [hbytes] at happend
    split
    · obtain ⟨rfl, hmore⟩ := append_inj happend (by omega)
      exact ⟨l', _, rfl, hmore, hflows', hwrite⟩
    · -- one byte of two has come
      rw [if_pos (length_pos_iff.1 hsome)]
      obtain ⟨x', hx'⟩ : r <+: x :=
        prefix_of_prefix_length_le ⟨l'.bytes, happend⟩ ⟨more, rfl⟩ (by omega)
      have hcount := congrArg List.length hx'
      rw [length_append] at hcount
      rw [← hx', append_assoc] at happend
      have hclient :
        SwHttpfile.httpclient { http with httpclient := some l', tmpBuf := write http.tmpBuf 0 r } =
        some l' := rfl
      obtain ⟨l'', buf, hloop, hmore, hflows'', hbuf⟩ :=
        ih (i - 1) (by omega) hclient hflows' (by omega) (by omega)
        (by omega) (append_cancel_left happend) (show i - 1 ≤ fuel by omega) (by dsimp only; omega)
      exact ⟨l'', buf, hloop, hmore, hflows'', hbuf.trans hwrite⟩

theorem skipCrlf_took (hready : http.Ready) (hflows : http.Flows)
    (hstream : http.stream = 13 :: 10 :: more) :
    ∃ http', skipCrlf http = (true, http') ∧ Took http [13, 10] http' := by
  have hlen := hready.tmp_length
  have hsize := hready.size
  rw [skipCrlf]
  split
  · rename_i htwo
    have htook := dropTmp_took hready htwo
    have htake : http.tmp.take 2 = [13, 10] := by
      have := congrArg (List.take 2) hstream
      rw [SwHttpfile.stream, take_append_of_le_length (by omega)] at this
      exact this
    rw [htake] at htook
    exact ⟨_, rfl, htook⟩
  · rename_i hfew
    obtain ⟨x, hx⟩ : http.tmp <+: [13, 10] :=
      prefix_of_prefix_length_le ⟨http.httpclient.elim [] Line.bytes, rfl⟩ ⟨more, hstream.symm⟩
        (by simp only [length_cons, length_nil]; omega)
    have hcount := congrArg List.length hx
    simp only [length_append, length_cons, length_nil] at hcount
    have hne : x ++ more ≠ [] := append_ne_nil_of_left_ne_nil (length_pos_iff.1 (by omega)) _
    obtain ⟨l, hl, hline⟩ := line_of_bytes (line_missing hx hstream) hne
    have hroom : 2 - http.tmpDataSize ≤ http.tmpBuf.length := by
      rw [hsize, maxPacketSize]
      omega
    obtain ⟨l', buf, hloop, hmore, hflows', hbuf⟩ := crlfLoop_eq hl (hflows l hl)
      (show 0 < 2 - http.tmpDataSize by omega) (by omega) (by omega) hline
        (show _ ≤ 21 by omega) hroom
    rw [hloop]
    refine ⟨_, rfl, ?_, rfl, by rw [hl]; rfl, ⟨hbuf.trans hsize, Nat.zero_le _⟩, ?_⟩
    · have hafter :
        SwHttpfile.stream { http with httpclient := some l', tmpBuf := buf, tmpDataSize := 0 } =
          l'.bytes := stream_of_empty rfl
      rw [if_pos rfl]
      dsimp only
      rw [hafter, hmore]
      exact hstream
    · rintro - l₁ ⟨⟩
      exact hflows'

end

structure Live (http : SwHttpfile) : Prop where
  ready : http.Ready
  flows : http.Flows
  connected : http.httpclient.isSome = true
  bchunk : http.bchunk = true
  recvError : http.recvError = false

/-- Before the head of a chunk: from the second one on a line break is to be skipped first. -/
structure AtHead (http : SwHttpfile) (e : Encoded) : Prop where
  live : Live http
  unfinished : http.bchunkend = false
  done : http.chunksize ≤ http.chunkpos
  stream : http.stream = (if http.bfstchunk then [] else [13, 10]) ++ e.text
  short : e.Short

structure Inside (http : SwHttpfile) (d : Bytes) (e : Encoded) : Prop where
  live : Live http
  unfinished : http.bchunkend = false
  started : http.bfstchunk = false
  left : http.chunksize - http.chunkpos = d.length
  stream : http.stream = d ++ 13 :: 10 :: e.text
  short : e.Short

inductive Left (http : SwHttpfile) : Bytes → Prop where
  | head {e} : AtHead http e → Left http e.body
  | inside {d e} : Inside http d e → d ≠ [] → Left http (d ++ e.body)
  | ended : Live http → http.bchunkend = true → Left http []

section
variable {s : SizeLine}

theorem Live.took (h : Live http) (htook : Took http d http') : Live http' where
  ready := htook.ready
  flows := htook.flows h.flows
  connected := htook.connected.trans h.connected
  bchunk := by rw [htook.frame]; exact h.bchunk
  recvError := by rw [htook.frame]; exact h.recvError

theorem Live.frame (h : Live http) :
    Live { http with
      bfstchunk := a, bchunkend := b, chunksize := i, chunkpos := j, currPos := k } :=
  ⟨⟨h.ready.size, h.ready.fits⟩, h.flows, h.connected, h.bchunk, h.recvError⟩

theorem Inside.atHead (h : Inside http [] e) : AtHead http e where
  live := h.live
  unfinished := h.unfinished
  done := by
    have := h.left
    rw [length_nil] at this
    omega
  stream := by
    rw [h.stream, h.started]
    rfl
  short := h.short

theorem Inside.toLeft (h : Inside http d e) : Left http (d ++ e.body) := by
  cases d with
  | nil => exact .head h.atHead
  | cons c d => exact .inside h (cons_ne_nil _ _)

theorem chunkHead_eq (hs : s.Short) (hlive : Live http)
    (hstream : http.stream = (if http.bfstchunk then [] else [13, 10]) ++
    (s.text ++ 13 :: 10 :: more)) :
    ∃ http', Live http' ∧ http'.stream = more ∧ http'.bfstchunk = false ∧ http'.chunksize = s.size ∧
      http'.bchunkend = http.bchunkend ∧
      chunkHead http = if (s.size : Int) = 0 then .ok (false, { http' with bchunkend := true })
        else .ok (true, { http' with chunkpos := 0 }) := by
  obtain ⟨http₁, hskip, htook, hstream₁⟩ : ∃ http₁,
    (if http.bfstchunk then (true, http) else skipCrlf http) =
      (true, http₁) ∧ Took http (if http.bfstchunk then [] else [13, 10]) http₁ ∧
      http₁.stream = s.text ++ 13 :: 10 :: more := by
    cases hfirst : http.bfstchunk with
    | true =>
      rw [hfirst] at hstream
      exact ⟨http, rfl, .refl hlive.ready, hstream⟩
    | false =>
      rw [hfirst] at hstream
      obtain ⟨http₁, hskip, htook⟩ := skipCrlf_took hlive.ready hlive.flows hstream
      exact ⟨http₁, hskip, htook, (append_cancel_left (hstream.symm.trans htook.stream)).symm⟩
  have hlive₁ : Live { http₁ with bfstchunk := false } := (hlive.took htook).frame
  obtain ⟨http₂, hline, htook₂⟩ := recvLine_took hs hlive₁.ready hlive₁.flows hstream₁
  refine ⟨{ http₂ with chunksize := s.size }, (hlive₁.took htook₂).frame, ?_, ?_, rfl, ?_, ?_⟩
  · have hall : (s.text ++ [13, 10]) ++ http₂.stream = (s.text ++ [13, 10]) ++ more := by
      rw [← htook₂.stream]
      exact hstream₁.trans (by simp)
    exact append_cancel_left hall
  · rw [htook₂.frame]
  · rw [htook₂.frame, htook.frame]
  · unfold chunkHead
    rw [hskip]
    dsimp only
    rw [hline]
    rfl

theorem chunkHead_cases (h : AtHead http e) :
    (e.body = [] ∧ ∃ http', chunkHead http = .ok (false, http') ∧ Live http' ∧
    http'.bchunkend = true) ∨
    ∃ d e', d ≠ [] ∧ e.body = d ++ e'.body ∧ ∃ http', chunkHead http = .ok (true, http') ∧
    Inside http' d e' := by
  have hstream := h.stream
  cases hchunks : e.chunks with
  | nil =>
    have htext : e.text = e.last.text ++ 13 :: 10 :: e.tail := by
      rw [Encoded.text, hchunks]
      rfl
    rw [htext] at hstream
    obtain ⟨http', hlive, -, -, -, -, hhead⟩ := chunkHead_eq h.short.last h.live hstream
    rw [if_pos (by rw [e.last_size]; rfl)] at hhead
    exact .inl ⟨by rw [Encoded.body, hchunks]; rfl, _, hhead, hlive.frame, rfl⟩
  | cons c cs =>
    have htext : e.text = c.line.text ++ 13 :: 10 :: (c.data ++ 13 :: 10 :: (e.next cs).text) := by
      rw [Encoded.text, hchunks]
      simp [Encoded.text, Encoded.next, Chunk.text]
    rw [htext] at hstream
    have hc : c ∈ e.chunks := hchunks ▸ mem_cons_self
    obtain ⟨http', hlive, hrest, hfirst, hsize, hend, hhead⟩ :=
      chunkHead_eq (h.short.chunks c hc) h.live hstream
    have hpos := length_pos_iff.2 c.data_ne_nil
    rw [if_neg (by rw [c.size_eq]; omega)] at hhead
    refine .inr ⟨c.data, e.next cs, c.data_ne_nil, by rw [Encoded.body, hchunks]; rfl, _, hhead, ?_⟩
    refine ⟨hlive.frame, hend.trans h.unfinished, hfirst, ?_, hrest, ?_, h.short.last⟩
    · dsimp only
      rw [hsize, c.size_eq, Int.sub_zero]
    · intro c' hc'
      exact h.short.chunks c' (hchunks ▸ mem_cons_of_mem _ hc')

theorem chunkData_eq (h : Inside http d e) (hn : 0 < n) :
    ∃ http', chunkData http n = .ok (true, d.take n.toNat, http') ∧
    Inside http' (d.drop n.toNat) e := by
  have hleft := h.left
  have hstream := h.stream
  have hcount := congrArg List.length hstream
  simp only [length_append, length_cons] at hcount
  obtain ⟨r, http₁, hread, htook, hall⟩ := readFileData_took h.live.ready
    (show 0 ≤ min (http.chunksize - http.chunkpos) n by omega) 3
  have hr := hall h.live.flows (by omega)
  have hsplit : d.take n.toNat ++ (d.drop n.toNat ++ 13 :: 10 :: e.text) = r ++ http₁.stream := by
    rw [← append_assoc, take_append_drop, ← hstream, htook.stream]
  obtain ⟨rfl, hrest⟩ := append_inj hsplit (by rw [length_take]; omega)
  have hlive := h.live.took htook
  rw [chunkData, hread, ok_bind]
  dsimp only
  rw [decide_eq_true hr]
  refine ⟨_, rfl, ⟨⟨hlive.ready.size, hlive.ready.fits⟩, hlive.flows, hlive.connected, hlive.bchunk,
    rfl⟩, ?_, ?_, ?_, hrest.symm, h.short⟩
  · rw [htook.frame]
    exact h.unfinished
  · rw [htook.frame]
    exact h.started
  · rw [htook.frame]
    dsimp only
    rw [length_drop]
    omega

theorem chunkLoop_eq {fuel : Nat} (h : Left http b) (hopen : http.bchunkend = false)
    (hgot : (got.length : Int) < size) (hfuel : size - got.length < fuel) :
    ∃ http', chunkLoop size fuel http got = .ok (got ++ b.take (size - got.length).toNat, http') ∧
      Left http' (b.drop (size - got.length).toNat) ∧ (b = [] → http'.bchunkend = true) := by
  induction fuel generalizing http got b with
  | zero => omega
  | succ fuel ih =>
    -- the round of a chunk that has data
    have hround {http : SwHttpfile} {d : Bytes} {e : Encoded} (hin : Inside http d e)
      (hd : d ≠ []) : ∃ http', (chunkData http (size - got.length) >>= fun x =>
          if x.1 = true ∧ ((got ++ x.2.1).length : Int) < size then
            chunkLoop size fuel x.2.2 (got ++ x.2.1)
          else .ok (got ++ x.2.1, x.2.2)) = .ok
            (got ++ (d ++ e.body).take (size - got.length).toNat, http') ∧
        Left http' ((d ++ e.body).drop (size - got.length).toNat) := by
      obtain ⟨http₁, hdata, hin₁⟩ := chunkData_eq hin (show 0 < size - got.length by omega)
      rw [hdata, ok_bind]
      dsimp only
      have hpos := length_pos_iff.2 hd
      rw [take_append, drop_append]
      generalize hk : (size - got.length).toNat = k at hin₁ ⊢
      rcases Nat.lt_or_ge d.length k with hmore | henough
      · -- the chunk is used up, and more is asked for
        have hlen : ((got ++ d.take k).length : Int) < size := by
          rw [take_of_length_le hmore.le, length_append]
          omega
        rw [if_pos ⟨rfl, hlen⟩]
        rw [take_of_length_le hmore.le] at hlen ⊢
        rw [drop_of_length_le hmore.le] at hin₁ ⊢
        have hrest : (size - (got ++ d).length).toNat = k - d.length := by
          rw [length_append]
          omega
        obtain ⟨http', hloop, hleft, -⟩ := ih hin₁.toLeft hin₁.unfinished hlen
          (by rw [length_append]; omega)
        rw [nil_append, hrest] at hloop hleft
        refine ⟨http', ?_, hleft⟩
        rw [hloop, append_assoc]
      · have hlen : ¬((got ++ d.take k).length : Int) < size := by
          rw [length_append, length_take]
          omega
        rw [if_neg fun h => hlen h.2, Nat.sub_eq_zero_of_le henough, take_zero, append_nil,
          drop_zero]
        exact ⟨http₁, rfl, hin₁.toLeft⟩
    rw [chunkLoop]
    cases h with
    | ended _ hend =>
      rw [hend] at hopen
      cases hopen
    | inside hin hd =>
      have hleft := hin.left
      have hpos := length_pos_iff.2 hd
      rw [if_neg (by omega), ok_bind]
      obtain ⟨http', hloop, hleft⟩ := hround hin hd
      exact ⟨http', hloop, hleft, fun hnil => absurd (append_eq_nil_iff.1 hnil).1 hd⟩
    | head hat =>
      rw [if_pos hat.done]
      obtain ⟨hnil, http', hhead, hlive, hend⟩ | ⟨d, e', hd, hbody, http', hhead, hin⟩ :=
        chunkHead_cases hat
      · rw [hhead, hnil, take_nil, drop_nil, append_nil]
        exact ⟨http', rfl, .ended hlive hend, fun _ => hend⟩
      · rw [hhead, ok_bind, hbody]
        obtain ⟨http'', hloop, hleft⟩ := hround hin hd
        exact ⟨http'', hloop, hleft, fun hnil => absurd (append_eq_nil_iff.1 hnil).1 hd⟩

theorem Left.live (h : Left http b) : Live http := by
  cases h with
  | head h | inside h _ => exact h.live
  | ended h _ => exact h

theorem Left.moved (h : Left http b) (p : Int) : Left { http with currPos := p } b := by
  have hlive : Live { http with currPos := p } := h.live.frame
  cases h with
  | head h => exact .head ⟨hlive, h.unfinished, h.done, h.stream, h.short⟩
  | inside h hd => exact .inside ⟨hlive, h.unfinished, h.started, h.left, h.stream, h.short⟩ hd
  | ended _ hend => exact .ended hlive hend

theorem read_left (h : Left http b) (hsize : 0 < size) :
    ∃ http', swHttpfileRead http size = .ok (b.take size.toNat, http') ∧
      Left http' (b.drop size.toNat) ∧ (b = [] → http'.bchunkend = true) := by
  have hlive := h.live
  have hconnected : ¬(size = 0 ∨ http.httpclient.isNone = true) := by
    simp [hsize.ne', ← Option.not_isSome, hlive.connected]
  obtain ⟨http₁, hread, hleft, hend⟩ : ∃ http₁,
    chunkRead http size = .ok (b.take size.toNat, http₁) ∧
      Left http₁ (b.drop size.toNat) ∧ (b = [] → http₁.bchunkend = true) := by
    rw [chunkRead, hlive.recvError]
    cases hopen : http.bchunkend with
    | true =>
      cases h with
      | head h | inside h _ => exact absurd (hopen.symm.trans h.unfinished) (by decide)
      | ended hlive hend =>
        rw [take_nil, drop_nil]
        exact ⟨http, rfl, .ended hlive hend, fun _ => hend⟩
    | false =>
      have hloop := chunkLoop_eq h hopen (show (([] : Bytes).length : Int) < size from hsize)
        (show size - 0 < ((size.toNat + 1 : Nat) : Int) by omega)
      rw [show size - (([] : Bytes).length : Int) = size from Int.sub_zero size] at hloop
      exact hloop
  rw [swHttpfileRead, if_neg (by omega), if_neg hconnected, if_pos hlive.bchunk, hread, ok_bind]
  exact ⟨_, rfl, hleft.moved _, hend⟩

def readAll : List Int → SwHttpfile → Attempt (List Bytes × SwHttpfile)
  | [], http => .ok ([], http)
  | size :: sizes, http => do
      let (r, http) ← swHttpfileRead http size
      let (rs, http) ← readAll sizes http
      .ok (r :: rs, http)

def pieces : List Int → Bytes → List Bytes
  | [], _ => []
  | size :: sizes, b => b.take size.toNat :: pieces sizes (b.drop size.toNat)

theorem pieces_flatten : (pieces sizes b).flatten = b.take (sizes.map Int.toNat).sum := by
  induction sizes generalizing b with
  | nil => simp [pieces]
  | cons size sizes ih =>
    rw [pieces, flatten_cons, ih, map_cons, sum_cons, take_add]

theorem readAll_left (h : Left http b) (hsizes : ∀ size ∈ sizes, 0 < size) :
    ∃ http', readAll sizes http = .ok (pieces sizes b, http') ∧
    Left http' (b.drop (sizes.map Int.toNat).sum) := by
  induction sizes generalizing http b with
  | nil => exact ⟨http, rfl, h⟩
  | cons size sizes ih =>
    obtain ⟨http₁, hread, hleft, -⟩ := read_left h (hsizes size mem_cons_self)
    obtain ⟨http₂, hrest, hleft₂⟩ := ih hleft (forall_mem_cons.1 hsizes).2
    rw [drop_drop] at hleft₂
    rw [map_cons, sum_cons]
    refine ⟨http₂, ?_, hleft₂⟩
    rw [readAll, hread, ok_bind]
    dsimp only
    rw [hrest, ok_bind]
    rfl

/-- A file in chunks as `sw_httpfile_connect` leaves it: some of the body is in `tmp_buf`, the
rest comes over the line in pieces of any size. -/
structure Opened (http : SwHttpfile) (e : Encoded) : Prop where
  live : Live http
  unfinished : http.bchunkend = false
  first : http.bfstchunk = true
  chunksize : http.chunksize = 0
  chunkpos : http.chunkpos = 0
  stream : http.stream = e.text

/-- If the sizes fit into an `int` and the lines into `tmp_buf`, reads of any sizes deliver the
body piece by piece, and the read behind the last byte finds the end. -/
theorem chunked_read (h : Opened http e) (hshort : e.Short) {sizes : List Int}
    (hsizes : ∀ size ∈ sizes, 0 < size) :
    ∃ http', readAll sizes http = .ok (pieces sizes e.body, http') ∧
      (pieces sizes e.body).flatten = e.body.take (sizes.map Int.toNat).sum ∧
      (e.body.length ≤ (sizes.map Int.toNat).sum → ∀ size > 0,
        ∃ http'', swHttpfileRead http' size = .ok ([], http'') ∧ http''.bchunkend = true) := by
  have hstart : AtHead http e := by
    refine ⟨h.live, h.unfinished, ?_, ?_, hshort⟩
    · rw [h.chunksize, h.chunkpos]
    · rw [h.stream, h.first]
      rfl
  obtain ⟨http', hread, hleft⟩ := readAll_left (.head hstart) hsizes
  refine ⟨http', hread, pieces_flatten, fun hall size hsize => ?_⟩
  rw [drop_of_length_le hall] at hleft
  obtain ⟨http'', hnext, -, hend⟩ := read_left hleft hsize
  rw [take_nil] at hnext
  exact ⟨http'', hnext, hend rfl⟩

end

def chunkedFile (tmp : Bytes) (l : Line UInt8) : SwHttpfile where
  httpclient := some l
  url := ⟨[], [], [], [], true, false, 0, [], 0, [], [], [], []⟩
  filesize := 0
  currPos := 0
  startPos := 0
  endPos := -1
  bchunk := true
  chunksize := 0
  chunkpos := 0
  bchunkend := false
  bfstchunk := true
  recvError := false
  tmpDataSize := tmp.length
  tmpBuf := tmp ++ replicate (maxPacketSize - tmp.length) 0
  bShutdown := false

theorem chunkedFile_opened (htmp : tmp.length ≤ maxPacketSize)
    (hflows : l.Flows) (htext : tmp ++ l.bytes = e.text) : Opened (chunkedFile tmp l) e := by
  refine ⟨⟨⟨?_, htmp⟩, ?_, rfl, rfl, rfl⟩, rfl, rfl, rfl, rfl, ?_⟩
  · rw [chunkedFile, length_append, length_replicate]
    omega
  · rintro l' ⟨⟩
    exact hflows
  · rw [← htext, SwHttpfile.stream, SwHttpfile.tmp, chunkedFile, take_left]
    rfl

def twoChunks : Encoded where
  chunks := [⟨⟨[50], [], by simp, by simp [Url.isHex], by simp, by simp⟩, [97, 98], by simp, rfl⟩,
    ⟨⟨[49], [59, 120], by simp, by simp [Url.isHex], by simp, by simp [Url.isHex]⟩, [99], by simp,
      rfl⟩]
  last := ⟨[48], [], by simp, by simp [Url.isHex], by simp, by simp⟩
  tail := [13, 10]
  last_size := rfl

theorem chunked_read_twoChunks :
    let http := chunkedFile [50, 13] ⟨[10, 97, 98, 13, 10, 49, 59, 120, 13, 10, 99, 13, 10, 48, 13,
    10, 13, 10],
      [some 0, some 1, some 1]⟩
    ∃ http', readAll [1, 5] http = .ok (pieces [1, 5] twoChunks.body, http') ∧
      (pieces [1, 5] twoChunks.body).flatten = twoChunks.body.take ([1, 5].map Int.toNat).sum ∧
      (twoChunks.body.length ≤ ([1, 5].map Int.toNat).sum → ∀ size > 0,
        ∃ http'', swHttpfileRead http' size = .ok ([], http'') ∧ http''.bchunkend = true) := by
  refine chunked_read (chunkedFile_opened (by decide) (by simp [Line.Flows]) rfl) ?_ (by simp)
  refine ⟨?_, by decide, by decide⟩
  simp only [twoChunks, mem_cons, not_mem_nil, or_false, forall_eq_or_imp, forall_eq]
  exact ⟨⟨by decide, by decide⟩, ⟨by decide, by decide⟩⟩

def largeLine : SizeLine :=
  ⟨[56, 48, 48, 48, 48, 48, 48, 48], [], by simp, by simp [Url.isHex], by simp, by simp⟩

def largeChunk (data : Bytes) (hdata : data.length = 2 ^ 31) : Encoded where
  chunks := [⟨largeLine, data, length_pos_iff.1 (hdata ▸ Nat.two_pow_pos 31), hdata.symm⟩]
  last := ⟨[48], [], by simp, by simp [Url.isHex], by simp, by simp⟩
  tail := [13, 10]
  last_size := rfl

def filler (n : Nat) : Bytes := replicate n 97

theorem filler_length : (filler n).length = n := length_replicate

theorem largeLine_recv (l : Line UInt8) :
    recvLine { chunkedFile (largeLine.text ++ [13, 10]) l with bfstchunk := false } =
      .ok (true, { chunkedFile (largeLine.text ++ [13, 10]) l with
        bfstchunk := false, tmpDataSize := 0, chunksize := -2 ^ 31 }) := by
  unfold chunkedFile
  generalize replicate (maxPacketSize - _) (0 : UInt8) = rest
  show (strhexInt64 (largeLine.text ++ 13 :: 10 :: rest) >>= _) = _
  have hint : int32 largeLine.size = -2 ^ 31 := by decide
  rw [largeLine.strhex (by decide), ok_bind, hint]
  rfl

theorem largeChunk_lost (hdata : data.length = 2 ^ 31) :
    let http := chunkedFile (largeLine.text ++ [13, 10]) ⟨data ++ [13, 10, 48, 13, 10, 13, 10], []⟩
    Opened http (largeChunk data hdata) ∧
      ∃ http', swHttpfileRead http 1 = .ok ([], http') ∧ http'.bchunkend = false := by
  intro http
  refine ⟨chunkedFile_opened (by decide) (by simp [Line.Flows]) ?_, ?_⟩
  · simp [Encoded.text, largeChunk, Chunk.text, SizeLine.text]
  · have hhead : chunkHead http =
        .ok (true, { http with bfstchunk := false, tmpDataSize := 0, chunksize := -2 ^ 31 }) := by
      have hline := largeLine_recv ⟨data ++ [13, 10, 48, 13, 10, 13, 10], []⟩
      have hfirst : chunkHead http = recvLine { http with bfstchunk := false } >>= _ := rfl
      rw [hfirst, hline]
      rfl
    have hfirst : swHttpfileRead http 1 = (chunkHead http >>= _) >>= _ := rfl
    rw [hfirst, hhead]
    exact ⟨_, rfl, rfl⟩

/-- The size is negative as an `int`, and the first read delivers nothing. -/
theorem large_chunk_is_lost : let data := filler (2 ^ 31)
    let http := chunkedFile (largeLine.text ++ [13, 10]) ⟨data ++ [13, 10, 48, 13, 10, 13, 10], []⟩
    Opened http (largeChunk data filler_length) ∧
      ∃ http', swHttpfileRead http 1 = .ok ([], http') ∧ http'.bchunkend = false :=
  largeChunk_lost filler_length

end SwApi.HttpFile
