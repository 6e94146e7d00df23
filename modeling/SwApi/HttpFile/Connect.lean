import SwApi.HttpFile.Reply
import SwApi.HttpFile.Stream

/-! What `sw_httpfile_connect` makes of the answers of a server. -/
namespace SwApi.HttpFile
open Library List
open Url (Net)

/-- The header of a reply comes over the line before a receive fails, and fits into `tmp_buf`. The
search for its end begins at the fifth byte, so that the first receive has to bring four. -/
structure Arrives (r : Reply) (l : Line UInt8) : Prop where
  fits : r.text.length < maxPacketSize
  first : ∀ cut ∈ l.cuts.head?, ∃ k, cut = some k ∧ 3 ≤ k
  whole : ∀ cut ∈ l.cuts.take r.text.length, cut ≠ none

section
variable {r : Reply}

theorem Reply.text_end (r : Reply) : ∃ front, r.text = front ++ [13, 10, 13, 10] ∧
    4 ≤ front.length := by
  obtain ⟨front, hfront⟩ := headerText_end (show r.lines ≠ [] from cons_ne_nil _ _)
  refine ⟨front, hfront, ?_⟩
  have hlen := congrArg List.length hfront
  rw [Reply.lines, headerText_cons, Reply.statusLine] at hlen
  simp only [headerText, length_append, length_cons, length_nil] at hlen
  omega

theorem Reply.nulFree (r : Reply) : 0 ∉ r.text := headerText_nulFree r.lines_ok

theorem blank_found (hp : p ++ q = r.text ++ body) (hfour : 4 ≤ p.length) (rest : Bytes) :
    (Url.strstr [13, 10, 13, 10] (Url.cstr ((p ++ 0 :: rest).drop 4))).isSome = true ↔
    r.text.length ≤ p.length := by
  rw [drop_append_of_le_length hfour]
  rcases Nat.lt_or_ge p.length r.text.length with hshort | hlong
  · refine iff_of_false ?_ (by omega)
    obtain ⟨missing, hmissing⟩ : p <+: r.text :=
      prefix_of_prefix_length_le ⟨q, hp⟩ ⟨body, rfl⟩ hshort.le
    rw [Url.cstr_terminated fun h => r.nulFree (hmissing ▸ mem_append_left _ (mem_of_mem_drop h))]
    intro hfound
    obtain ⟨d, hd⟩ := Option.isSome_iff_exists.1 hfound
    have hplace := Url.strstr_place hd
    rw [drop_drop] at hplace
    have hin := hplace.length_le
    rw [length_drop] at hin
    simp only [length_cons, length_nil] at hin
    have hend := blankLine_last r.lines_ok (i := 4 + d) (by
      rw [← Reply.text, ← hmissing, drop_append_of_le_length (by omega)]
      exact hplace.trans (prefix_append _ _))
    rw [← Reply.text] at hend
    omega
  · refine iff_of_true ?_ hlong
    obtain ⟨more, hmore⟩ : r.text <+: p := prefix_of_prefix_length_le ⟨body, rfl⟩ ⟨q, hp⟩ hlong
    obtain ⟨front, hfront, hlen⟩ := r.text_end
    have hnul : 0 ∉ front.drop 4 ++ [13, 10, 13, 10] := by
      have hfree := r.nulFree
      rw [hfront] at hfree
      exact fun h => hfree ((mem_append.1 h).elim (fun h => mem_append_left _ (mem_of_mem_drop h))
        (mem_append_right _))
    have hcstr : Url.cstr (p.drop 4 ++ 0 :: rest) =
        (front.drop 4 ++ [13, 10, 13, 10]) ++ Url.cstr (more ++ 0 :: rest) := by
      have hdrop : p.drop 4 = (front.drop 4 ++ [13, 10, 13, 10]) ++ more := by
        rw [← hmore, hfront, append_assoc, drop_append_of_le_length hlen, append_assoc]
      rw [hdrop, append_assoc, Url.cstr_append hnul]
    rw [hcstr, append_assoc]
    have hplace : [13, 10, 13, 10] <+:
        (front.drop 4 ++ ([13, 10, 13, 10] ++ Url.cstr (more ++ 0 :: rest))).drop
          (front.drop 4).length := by
      rw [drop_left]
      exact prefix_append _ _
    obtain ⟨d, -, hd, -⟩ := Url.strstr_found hplace
    rw [hd]
    rfl

theorem headerLoop_eq (fuel : Nat) (hl : http.httpclient = some l)
    (hsize : http.tmpBuf.length = maxPacketSize)
    (hstream : http.tmpBuf.take m ++ l.bytes = r.text ++ body) (hm : m < r.text.length)
    (hfits : r.text.length < maxPacketSize) (hwhole : ∀ cut ∈ l.cuts.take (r.text.length - m),
    cut ≠ none)
    (hfirst : 4 ≤ m ∨ m = 0 ∧ ∀ cut ∈ l.cuts.head?, ∃ k, cut = some k ∧ 3 ≤ k)
    (hfuel : r.text.length ≤ m + fuel) :
    ∃ l' buf n, headerLoop fuel http m = ({ http with httpclient := some l', tmpBuf := buf }, n) ∧
      buf.length = maxPacketSize ∧ r.text.length ≤ n ∧ n < maxPacketSize ∧
      buf.take n ++ l'.bytes = r.text ++ body := by
  induction fuel generalizing http l m with
  | zero => omega
  | succ fuel ih =>
    have hroom : m < maxPacketSize - 1 := by omega
    obtain ⟨front, hfront, hfrontLen⟩ := r.text_end
    generalize hask : (if 2048 < maxPacketSize - m then 2048 else maxPacketSize - m - 1) = ask
    have hask' : 0 < ask ∧ m + ask < maxPacketSize := by
      rw [← hask]
      split <;> omega
    have htake : (http.tmpBuf.take m).length = m := length_take_of_le (by omega)
    have hbytes : l.bytes ≠ [] := by
      intro hnil
      have := congrArg List.length hstream
      rw [hnil, append_nil, length_append, htake] at this
      omega
    have hcut : l.cuts.head? ≠ some none := by
      intro hhead
      obtain ⟨cuts, hcuts⟩ := head?_eq_some_iff.1 hhead
      obtain ⟨k, hk⟩ : ∃ k, r.text.length - m = k + 1 := Nat.exists_eq_succ_of_ne_zero (by omega)
      rw [hcuts, hk, take_succ_cons] at hwhole
      exact hwhole none mem_cons_self rfl
    have hsome := length_pos_iff.2 (Line.recv_ne_nil hcut hask'.1 hbytes)
    have hle := l.recv_length ask
    have happend := l.recv_append ask
    have hcuts := l.recv_cuts ask
    have hfour : 4 ≤ m + (l.recv ask).1.length := by
      rcases hfirst with hfour | ⟨rfl, hfirst⟩
      · omega
      · have hlen := congrArg List.length hstream
        rw [take_zero, nil_append, length_append, hfront, length_append] at hlen
        have hask : ask = 2048 := by
          rw [← hask]
          exact if_pos (by decide)
        unfold Line.recv
        split
        · simp only [length_take]
          omega
        · rename_i hc
          rw [hc] at hcut
          exact absurd rfl hcut
        · rename_i k cuts hc
          obtain ⟨k', hk', hthree⟩ := hfirst (some k) (by rw [hc]; rfl)
          cases hk'
          simp only [length_take]
          omega
    have hrecv : recvData http ask = ((l.recv ask).1,
      { http with httpclient := some (l.recv ask).2 }) := by
      rw [recvData, hl]
    rw [headerLoop, if_pos hroom]
    dsimp only
    rw [hask, hrecv]
    generalize l.recv ask = x at hsome hle happend hcuts hfour ⊢
    obtain ⟨got, l'⟩ := x
    dsimp only at hsome hle happend hcuts hfour ⊢
    have hwrite : (write http.tmpBuf m got).length = maxPacketSize :=
      (write_length (by omega)).trans hsize
    have hbuf : ((write http.tmpBuf m got).set (m + got.length) 0).take (m + got.length) =
      http.tmpBuf.take m ++ got := by
      rw [take_set_of_le le_rfl, write_take (by omega)]
    have hlen : (http.tmpBuf.take m ++ got).length = m + got.length := by
      rw [length_append, htake]
    have hsplit : (write http.tmpBuf m got).set (m + got.length) 0 =
        (http.tmpBuf.take m ++ got) ++ 0 :: (write http.tmpBuf m got).drop
          (m + got.length + 1) := by
      rw [set_eq_take_append_cons_drop, if_pos (by omega), write_take (by omega)]
    have hstream' : (http.tmpBuf.take m ++ got) ++ l'.bytes = r.text ++ body := by
      rw [append_assoc, happend, hstream]
    have hfound :=
      blank_found hstream' (by omega) ((write http.tmpBuf m got).drop (m + got.length + 1))
    rw [← hsplit, hlen] at hfound
    rw [if_neg (length_pos_iff.1 hsome)]
    by_cases hdone : r.text.length ≤ m + got.length
    · rw [if_pos (hfound.2 hdone)]
      refine ⟨l', _, _, rfl, ?_, hdone, by omega, ?_⟩
      · rw [length_set, hwrite]
      · rw [hbuf, hstream']
    · rw [if_neg fun h => hdone (hfound.1 h)]
      have hclient : SwHttpfile.httpclient { http with
        httpclient := some l', tmpBuf := (write http.tmpBuf m got).set (m + got.length) 0 } =
          some l' := rfl
      refine ih hclient ?_ ?_ (by omega) ?_ (.inl hfour) (by omega)
      · rw [length_set, hwrite]
      · rw [hbuf, hstream']
      · intro cut hmem
        rw [hcuts, ← drop_one, take_drop] at hmem
        exact hwhole cut (take_subset_take_left _ (by omega) (mem_of_mem_drop hmem))

end

inductive Served (c : Bytes) (pos : Nat) : Answer → Prop where
  | refused : Served c pos .refused
  | unsent {l} : l.bytes = [] → Served c pos (.unsent l)
  | silent {l} : l.bytes = [] → Served c pos (.sent l)
  | partly {r : Reply} {l} : r.status = 206 → Truthful r c pos → l.bytes = r.text ++ c.drop pos →
      Served c pos (.sent l)
  | whole {r : Reply} {l} : r.status = 200 → Truthful r c 0 → l.bytes = r.text ++ c →
    Served c pos (.sent l)
  | failure {r : Reply} {l body} : 400 ≤ r.status → l.bytes = r.text ++ body →
    Served c pos (.sent l)

inductive Sound (c : Bytes) (pos : Nat) : Answer → Prop where
  | refused : Sound c pos .refused
  | unsent {l} : l.bytes = [] → Sound c pos (.unsent l)
  | silent {l} : l.bytes = [] → Sound c pos (.sent l)
  | answered {r : Reply} {l} : r.status = 206 ∨ r.status = 200 ∧ pos = 0 → Truthful r c pos →
    Arrives r l → l.bytes = r.text ++ c.drop pos → Sound c pos (.sent l)

def Answer.Mute : Answer → Prop
  | .refused => True
  | .unsent l => l.bytes = []
  | .sent l => l.bytes = []

section
variable {r : Reply}

theorem Sound.mute_or (h : Sound c pos answer) :
    answer.Mute ∨ ∃ (r : Reply) (l : Line UInt8), answer = .sent l ∧
    (r.status = 206 ∨ r.status = 200 ∧ pos = 0) ∧
      Truthful r c pos ∧ Arrives r l ∧ l.bytes = r.text ++ c.drop pos := by
  cases h with
  | refused => exact .inl trivial
  | unsent h | silent h => exact .inl h
  | answered hstatus htrue harrives hbytes => exact .inr ⟨_, _, rfl, hstatus, htrue, harrives,
    hbytes⟩

theorem recvHeader_mute (hclient : http.httpclient = some l) (hmute : l.bytes = []) :
    ∃ l', l'.bytes = [] ∧ recvHeader http = ({ http with httpclient := some l' }, 0) := by
  obtain ⟨hr, hl⟩ := append_eq_nil_iff.1 ((l.recv_append 2048).trans hmute)
  have hrecv : recvData http 2048 = ([], { http with httpclient := some (l.recv 2048).2 }) := by
    rw [recvData, hclient]
    dsimp only
    rw [hr]
  refine ⟨_, hl, ?_⟩
  unfold recvHeader maxPacketSize
  rw [headerLoop, if_pos (by decide)]
  dsimp only
  rw [show (if 2048 < maxPacketSize - 0 then 2048 else maxPacketSize - 0 - 1) = 2048 from if_pos
    (by decide), hrecv]
  exact if_pos rfl

theorem int64_eq (hlow : -2 ^ 63 ≤ x) (hhigh : x < 2 ^ 63) : int64 x = .ok x := if_pos ⟨hlow, hhigh⟩

theorem findSize_reply (htrue : Truthful r c pos) (hc : c.length < 2 ^ 63) (hpos : pos < 2 ^ 63)
    (hbuf : http.tmpBuf = r.text ++ rest) :
    ∃ n, findSize http pos retcode r.text.length = .ok (true, { http with filesize := n }) := by
  have hsize := checkContentSize_reply htrue hc rest
  have hrange := getContentRange_reply htrue hc rest
  rw [← hbuf] at hsize hrange
  obtain ⟨contentsize, size, hlength, hsized, hcontent⟩ : ∃ contentsize size,
      checkContentSize http.tmpBuf r.text.length = .ok contentsize ∧
      sizeByLength http.filesize pos retcode contentsize = .ok size ∧
      (contentsize = none ∨ contentsize = some ((c.length - pos : Nat) : Int)) := by
    rcases hsize with hsize | hsize
    · exact ⟨none, _, hsize, rfl, .inl rfl⟩
    · refine ⟨_, if retcode = 206 then
        (pos : Int) + (c.length - pos : Nat) else (c.length - pos : Nat), hsize, ?_, .inr rfl⟩
      rw [sizeByLength]
      split
      · exact int64_eq (by omega) (by omega)
      · rfl
  rw [findSize, hlength, ok_bind, hsized, ok_bind]
  rcases hrange with hrange | ⟨hlt, total, hrange⟩
  · rw [hrange, ok_bind]
    exact ⟨size, rfl⟩
  · obtain ⟨length, hranged, heq⟩ : ∃ length, rangeLength pos (c.length - 1 : Nat) = .ok length ∧
        (((c.length - 1 : Nat) : Int) ≠ 0 → length = ((c.length - pos : Nat) : Int)) := by
      rw [rangeLength]
      split
      · rename_i hzero
        exact ⟨0, rfl, fun h => absurd hzero h⟩
      · exact ⟨_, int64_eq (by omega) (by omega), fun _ => by omega⟩
    have hagree : ¬(((c.length - 1 : Nat) : Int) ≠ 0 ∧ retcode = 206 ∧ contentsize.isSome = true ∧
        contentsize ≠ some length) := by
      rintro ⟨hne, -, hsome, hdiff⟩
      rcases hcontent with rfl | rfl
      · cases hsome
      · exact hdiff (congrArg some (heq hne).symm)
    obtain ⟨size', htotal⟩ : ∃ size', sizeByRange size (c.length - 1 : Nat) total = .ok size' := by
      rw [sizeByRange]
      split
      · exact ⟨_, rfl⟩
      · split
        · exact ⟨_, int64_eq (by omega) (by omega)⟩
        · exact ⟨_, rfl⟩
    rw [hrange, ok_bind]
    dsimp only
    rw [hranged, ok_bind, if_neg hagree, htotal, ok_bind]
    exact ⟨size', rfl⟩

theorem accept_reply (htrue : Truthful r c pos) (hc : c.length < 2 ^ 63) (hpos : pos < 2 ^ 63)
    (hbuf : http.tmpBuf = r.text ++ rest) (retcode : Int) (recvsize : Nat) :
    ∃ n, accept http pos retcode r.text.length recvsize =
      .ok (true, keepData { http with filesize := n } r.text.length recvsize) := by
  obtain ⟨n, hsize⟩ := findSize_reply htrue hc hpos hbuf
  have hencoding : getFieldValue http.tmpBuf r.text.length transferEncoding 256 = none := by
    rw [hbuf]
    obtain hnone | ⟨f, hf, hsame, -⟩ := getFieldValue_reply r transferEncoding.dropLast (by decide)
      (by decide) rfl 256 rest
    · exact hnone
    · exact absurd hsame (htrue.encoding f hf)
  refine ⟨n, ?_⟩
  unfold accept
  rw [hencoding]
  dsimp only [Option.getD_none]
  rw [if_neg (by decide), if_neg (by decide), hsize, ok_bind]
  rfl

theorem keepData_stream (hclient : http.httpclient = some l) (hbuf : http.tmpBuf = buf)
    (hsize : buf.length = maxPacketSize) (hn : r.text.length ≤ n) (hn' : n < maxPacketSize)
    (hstream : buf.take n ++ l.bytes = r.text ++ body) :
    (keepData http r.text.length n).stream = body ∧ (keepData http r.text.length n).Ready := by
  have hlen : (buf.take n).length = n := length_take_of_le (by omega)
  obtain ⟨x, hx⟩ : r.text <+: buf.take n :=
    prefix_of_prefix_length_le ⟨body, rfl⟩ ⟨l.bytes, hstream⟩ (by omega)
  have hbody : x ++ l.bytes = body := by
    rw [← hx, append_assoc] at hstream
    exact append_cancel_left hstream
  have hxlen : x.length = n - r.text.length := by
    have := congrArg List.length hx
    rw [length_append, hlen] at this
    omega
  have hdata : (buf.drop r.text.length).take (n - r.text.length) = x := by
    rw [← drop_take, ← hx, drop_left]
  unfold keepData
  split
  · have htake : (write buf 0 x).take x.length = x := write_zero x buf
    rw [hbuf, hdata]
    refine ⟨?_, ?_, ?_⟩
    · rw [SwHttpfile.stream, SwHttpfile.tmp]
      dsimp only
      rw [← hxlen, htake, hclient]
      exact hbody
    · dsimp only
      rw [write_length (by omega), hsize]
    · dsimp only
      omega
  · have hnil : x = [] := length_eq_zero_iff.1 (by omega)
    rw [hnil, nil_append] at hbody
    refine ⟨?_, ?_, Nat.zero_le _⟩
    · rw [stream_of_empty rfl]
      dsimp only
      rw [hclient]
      exact hbody
    · exact (congrArg List.length hbuf).trans hsize

structure Kept (http http' : SwHttpfile) : Prop where
  bchunk : http'.bchunk = false
  currPos : http'.currPos = http.currPos
  startPos : http'.startPos = http.startPos
  endPos : http'.endPos = http.endPos
  bShutdown : http'.bShutdown = http.bShutdown

variable (net) in
theorem connect_mute (seekPos : Int) (hmute : answer.Mute) :
    ∃ client, connect net http seekPos [answer] = .ok (false, http.restart.request client) ∧
      client.elim [] Line.bytes = [] := by
  unfold connect connectLoop
  cases http.restart.bShutdown with
  | true => exact ⟨none, rfl, rfl⟩
  | false =>
    rw [if_neg Bool.false_ne_true]
    dsimp only [headD_cons]
    cases answer with
    | refused => exact ⟨none, rfl, rfl⟩
    | unsent l => exact ⟨some l, rfl, hmute⟩
    | sent l =>
      obtain ⟨l', hl', hrecv⟩ :=
        recvHeader_mute (show (http.restart.request (some l)).httpclient = some l from rfl) hmute
      refine ⟨some l', ?_, hl'⟩
      dsimp only
      rw [hrecv]
      exact if_pos (.inl rfl)

theorem connect_sent (hshut : http.bShutdown = false)
    (hloop : recvHeader (http.restart.request (some l)) = (http₁, n))
    (hheader : getHeaderSize (http₁.tmpBuf.take n) = headerLen)
    (hcode : getRetCode http₁.tmpBuf = retcode) (hlen : 0 < headerLen ∧ headerLen ≤ n)
    (hlow : 100 ≤ retcode) (hhigh : retcode < 300) :
    connect net http seekPos [.sent l] = accept http₁ seekPos retcode headerLen n := by
  have hsmall : ¬retcode / 100 = 3 := by omega
  have hgood : ¬(400 ≤ retcode ∨ retcode ≤ 0) := by omega
  have hwhole : ¬(n = 0 ∨ headerLen = 0 ∨ n < headerLen) := by omega
  unfold connect connectLoop
  rw [show http.restart.bShutdown = false from hshut, if_neg Bool.false_ne_true]
  dsimp only [headD_cons]
  rw [hloop]
  dsimp only
  rw [hheader, hcode, if_neg hwhole, if_neg hsmall, if_neg hgood]

variable (net) in
theorem connect_answered (hsize : http.tmpBuf.length = maxPacketSize)
    (hshut : http.bShutdown = false)
    (hc : c.length < 2 ^ 63) (hpos : pos < 2 ^ 63) (hstatus : r.status = 206 ∨ r.status = 200 ∧
    pos = 0)
    (htrue : Truthful r c pos) (harrives : Arrives r l) (hbytes : l.bytes = r.text ++ c.drop pos) :
    ∃ http', connect net http pos [.sent l] = .ok (true, http') ∧ Kept http http' ∧ http'.Ready ∧
      http'.stream = c.drop pos := by
  obtain ⟨front, hfront, hfrontLen⟩ := r.text_end
  have hpositive : 0 < r.text.length := by
    rw [hfront, length_append]
    omega
  generalize hhttp : http.restart.request (some l) = http₀
  have hclient : http₀.httpclient = some l := by
    rw [← hhttp]
    rfl
  have hsize₀ : http₀.tmpBuf.length = maxPacketSize := by
    rw [← hhttp]
    exact hsize
  have hfits := harrives.fits
  obtain ⟨l', buf, n, hloop, hlen, hn, hn', hstream⟩ :=
    headerLoop_eq maxPacketSize (m := 0) hclient hsize₀ hbytes
    hpositive hfits harrives.whole (.inr ⟨rfl, harrives.first⟩) (by omega)
  obtain ⟨x, hx⟩ : r.text <+: buf.take n :=
    prefix_of_prefix_length_le ⟨_, rfl⟩ ⟨l'.bytes, hstream⟩ (by rw [length_take]; omega)
  have hbuf : buf = r.text ++ (x ++ buf.drop n) := by
    rw [← append_assoc, hx, take_append_drop]
  have hheader : getHeaderSize (buf.take n) = r.text.length := by
    rw [← hx]
    exact getHeaderSize_eq r.lines_ok x
  have hcode : getRetCode buf = r.status := by
    rw [hbuf]
    exact getRetCode_eq r _
  have hok : (100 : Int) ≤ r.status ∧ (r.status : Int) < 300 := by omega
  generalize hhttp₁ : ({ http₀ with httpclient := some l', tmpBuf := buf } : SwHttpfile) =
    http₁ at hloop
  have hbuf₁ : http₁.tmpBuf = buf := by rw [← hhttp₁]
  rw [← hhttp] at hloop
  rw [← hbuf₁] at hheader hcode
  rw [connect_sent hshut hloop hheader hcode (by omega) hok.1 hok.2]
  obtain ⟨size, haccept⟩ := accept_reply htrue hc hpos (hbuf₁.trans hbuf) r.status n
  rw [haccept]
  have hclient₁ : SwHttpfile.httpclient { http₁ with filesize := size } =
    some l' := by rw [← hhttp₁]
  obtain ⟨hdata, hready⟩ := keepData_stream hclient₁ hbuf₁ hlen hn hn' hstream
  refine ⟨_, rfl, ?_, hready, hdata⟩
  rw [← hhttp₁, ← hhttp]
  unfold keepData
  split <;> exact ⟨rfl, rfl, rfl, rfl, rfl⟩

end

end SwApi.HttpFile
