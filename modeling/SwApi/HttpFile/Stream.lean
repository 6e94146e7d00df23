import SwApi.HttpFile.Model

/-! The bytes a file has still to deliver, in `tmp_buf` and on the line; every read takes its bytes
off their front. -/
namespace SwApi.HttpFile
open Library List

def SwHttpfile.stream (http : SwHttpfile) : Bytes := http.tmp ++ http.httpclient.elim [] Line.bytes

structure SwHttpfile.Ready (http : SwHttpfile) : Prop where
  size : http.tmpBuf.length = maxPacketSize
  fits : http.tmpDataSize ≤ maxPacketSize

def SwHttpfile.Flows (http : SwHttpfile) : Prop := ∀ l ∈ http.httpclient, l.Flows

/-- `http'` is `http` when it has delivered `s`: nothing but buffer and line has changed. -/
structure Took (http : SwHttpfile) (s : Bytes) (http' : SwHttpfile) : Prop where
  stream : http.stream = s ++ http'.stream
  frame : http' = { http with
    httpclient := http'.httpclient, tmpBuf := http'.tmpBuf, tmpDataSize := http'.tmpDataSize }
  connected : http'.httpclient.isSome = http.httpclient.isSome
  ready : http'.Ready
  flows : http.Flows → http'.Flows

theorem write_length (h : i + s.length ≤ a.length) : (write a i s).length = a.length := by
  simp only [write, length_append, length_take, length_drop]
  omega

theorem write_take (h : i ≤ a.length) : (write a i s).take (i + s.length) = a.take i ++ s := by
  have hlen : (a.take i).length = i := length_take_of_le h
  rw [write, ← append_assoc, take_left']
  rw [length_append, hlen]

theorem write_zero (s a : Bytes) : (write a 0 s).take s.length = s := by
  have := write_take (s := s) (Nat.zero_le a.length)
  rwa [Nat.zero_add, take_zero, nil_append] at this

section
variable {http : SwHttpfile}

theorem SwHttpfile.Ready.tmp_length (h : http.Ready) : http.tmp.length = http.tmpDataSize :=
  length_take_of_le (h.size ▸ h.fits)

theorem stream_of_empty (h : http.tmpDataSize = 0) :
    http.stream = http.httpclient.elim [] Line.bytes := by
  rw [SwHttpfile.stream, SwHttpfile.tmp, h, take_zero, nil_append]

theorem line_of_bytes (h : http.httpclient.elim [] Line.bytes = s) (hs : s ≠ []) :
    ∃ l, http.httpclient = some l ∧ l.bytes = s := by
  cases hc : http.httpclient with
  | none =>
    rw [hc] at h
    exact absurd h.symm hs
  | some l =>
    rw [hc] at h
    exact ⟨l, rfl, h⟩

theorem Took.refl (h : http.Ready) : Took http [] http := ⟨rfl, rfl, rfl, h, id⟩

theorem Took.trans (h : Took http s http') (h' : Took http' t http'') :
    Took http (s ++ t) http'' where
  stream := by rw [h.stream, h'.stream, append_assoc]
  frame := by
    rw [h'.frame, h.frame]
  connected := h'.connected.trans h.connected
  ready := h'.ready
  flows hf := h'.flows (h.flows hf)

theorem clearTmp_took (h : http.Ready) : Took http http.tmp { http with tmpDataSize := 0 } := by
  have hafter : SwHttpfile.stream { http with tmpDataSize := 0 } = http.httpclient.elim
    [] Line.bytes :=
    stream_of_empty rfl
  refine ⟨?_, rfl, rfl, ⟨h.size, Nat.zero_le _⟩, id⟩
  rw [hafter]
  rfl

theorem dropTmp_took (h : http.Ready) (hn : n ≤ http.tmpDataSize) :
    Took http (http.tmp.take n) (http.dropTmp n) := by
  have hsize := h.size
  have hfits := h.fits
  have hmoved : ((http.tmpBuf.drop n).take (http.tmpDataSize - n)).length =
    http.tmpDataSize - n := by
    rw [length_take, length_drop]
    omega
  have htmp : (http.dropTmp n).tmp = http.tmp.drop n := by
    have hdrop : http.tmp.drop n = (http.tmpBuf.drop n).take (http.tmpDataSize - n) := drop_take ..
    rw [hdrop]
    dsimp only [SwHttpfile.tmp, SwHttpfile.dropTmp]
    split
    · have := write_zero ((http.tmpBuf.drop n).take (http.tmpDataSize - n)) http.tmpBuf
      rwa [hmoved] at this
    · rename_i hzero
      simp [show http.tmpDataSize - n = 0 by omega]
  refine ⟨?_, rfl, rfl, ⟨?_, ?_⟩, id⟩
  · rw [SwHttpfile.stream, SwHttpfile.stream, htmp, ← append_assoc, take_append_drop]
    rfl
  · dsimp only [SwHttpfile.dropTmp]
    split
    · rw [write_length (by omega), hsize]
    · exact hsize
  · exact (Nat.sub_le _ _).trans hfits

theorem recvData_took (h : http.Ready) (hempty : http.tmpDataSize = 0) (n : Nat) :
    Took http (recvData http n).1 (recvData http n).2 := by
  unfold recvData
  split
  · exact .refl h
  · rename_i l hl
    refine ⟨?_, rfl, by rw [hl]; rfl, ⟨h.size, h.fits⟩, ?_⟩
    · have hafter : SwHttpfile.stream { http with httpclient := some (l.recv n).2 } =
        (l.recv n).2.bytes :=
        stream_of_empty hempty
      rw [stream_of_empty hempty, hl]
      dsimp only
      rw [hafter]
      exact (l.recv_append n).symm
    · rintro hflows l' ⟨⟩
      exact (hflows l hl).recv n

theorem recvData_size (http : SwHttpfile) (n : Nat) :
    (recvData http n).2.tmpDataSize = http.tmpDataSize := by
  unfold recvData
  split <;> rfl

theorem recvData_length (http : SwHttpfile) (n : Nat) : (recvData http n).1.length ≤ n := by
  unfold recvData
  split
  · exact Nat.zero_le _
  · exact Line.recv_length _ _

theorem recvData_ne_nil (hflows : http.Flows) (hempty : http.tmpDataSize = 0) (hn : 0 < n)
    (hstream : http.stream ≠ []) : (recvData http n).1 ≠ [] := by
  rw [stream_of_empty hempty] at hstream
  unfold recvData
  split
  · rename_i hl
    rw [hl] at hstream
    exact absurd rfl hstream
  · rename_i l hl
    rw [hl] at hstream
    exact Line.recv_ne_nil (hflows l hl).head hn hstream

theorem recvLoop_took (retrycount fuel want trycont : Nat) (h : http.Ready)
    (hempty : http.tmpDataSize = 0) : let r := recvLoop retrycount fuel http want trycont
    Took http r.1 r.2 ∧ r.1.length ≤ want ∧
      (http.Flows → want ≤ http.stream.length → want < fuel → r.1.length = want) := by
  induction fuel generalizing http want trycont with
  | zero => exact ⟨.refl h, Nat.zero_le _, by omega⟩
  | succ fuel ih =>
    rw [recvLoop]
    by_cases hwant : want = 0
    · rw [if_pos hwant]
      exact ⟨.refl h, Nat.zero_le _, fun _ _ _ => hwant.symm⟩
    · rw [if_neg hwant]
      have htook := recvData_took h hempty want
      have hlen := recvData_length http want
      have hsize := (recvData_size http want).trans hempty
      have hsome (hflows : http.Flows) (hstream : http.stream ≠ []) : (recvData http want).1 ≠ [] :=
        recvData_ne_nil hflows hempty (by omega) hstream
      generalize recvData http want = x at htook hlen hsize hsome ⊢
      obtain ⟨r, http₁⟩ := x
      dsimp only at htook hlen hsize hsome ⊢
      by_cases hr : r = []
      · rw [if_neg (not_not.2 hr)]
        have hfail : ¬(http.Flows ∧ want ≤ http.stream.length) := by
          rintro ⟨hflows, hwanted⟩
          refine hsome hflows ?_ hr
          intro hnil
          rw [hnil] at hwanted
          exact hwant (Nat.le_zero.1 hwanted)
        subst hr
        split
        · exact ⟨htook, Nat.zero_le _, fun hflows hwanted => absurd ⟨hflows, hwanted⟩ hfail⟩
        · obtain ⟨htook', hlen', -⟩ := ih want (trycont + 1) htook.ready hsize
          exact ⟨htook.trans htook', hlen', fun hflows hwanted => absurd ⟨hflows, hwanted⟩ hfail⟩
      · rw [if_pos hr]
        obtain ⟨htook', hlen', hall⟩ := ih (want - r.length) 0 htook.ready hsize
        have hpos := length_pos_iff.2 hr
        have hstream := congrArg List.length htook.stream
        rw [length_append] at hstream
        generalize recvLoop retrycount fuel http₁ (want - r.length) 0 = rest at htook' hlen' hall
        obtain ⟨r', http₂⟩ := rest
        dsimp only at htook' hlen' hall ⊢
        refine ⟨htook.trans htook', ?_, fun hflows hwanted hfuel => ?_⟩
        · rw [length_append]
          omega
        · have := hall (htook.flows hflows) (by omega) (by omega)
          rw [length_append]
          omega

theorem recvAll_took (h : http.Ready) (hempty : http.tmpDataSize = 0) :
    let r := recvAll retrycount http want
    Took http r.1 r.2 ∧ r.1.length ≤ want ∧
      (http.Flows → want ≤ http.stream.length → r.1.length = want) := by
  obtain ⟨htook, hcount, hall⟩ :=
    recvLoop_took retrycount ((want + 1) * (retrycount + 3)) want 0 h hempty
  have hfuel : want < (want + 1) * (retrycount + 3) :=
    Nat.lt_of_lt_of_le (Nat.lt_succ_self _) (Nat.le_mul_of_pos_right _ (by omega))
  exact ⟨htook, hcount, fun hflows hwanted => hall hflows hwanted hfuel⟩

theorem readFileData_took (h : http.Ready) (hsize : 0 ≤ size) (retrycount : Nat) :
    ∃ r http', readFileData http size retrycount = .ok (r, http') ∧ Took http r http' ∧
      (http.Flows → size ≤ http.stream.length → (r.length : Int) = size) := by
  have hlen := h.tmp_length
  rw [readFileData]
  split
  · rename_i hin
    rw [if_neg (by omega)]
    have htake : http.tmp.take size.toNat = http.tmpBuf.take size.toNat := by
      rw [SwHttpfile.tmp, take_take, Nat.min_eq_left (by omega)]
    have hcount : (http.tmpBuf.take size.toNat).length = size.toNat := by
      rw [← htake, length_take, hlen]
      omega
    have htook := dropTmp_took h (show size.toNat ≤ http.tmpDataSize by omega)
    rw [htake] at htook
    exact ⟨_, _, rfl, htook, fun _ _ => by omega⟩
  · rename_i hout
    have hle : (http.tmpDataSize : Int) ≤ size := by omega
    have hfirst := clearTmp_took h
    obtain ⟨htook, hcount, hall⟩ := recvAll_took hfirst.ready rfl
    have hstream := congrArg List.length hfirst.stream
    rw [length_append, hlen] at hstream
    generalize recvAll retrycount { http with tmpDataSize := 0 } (size - http.tmpDataSize).toNat =
      x at htook hcount hall ⊢
    obtain ⟨r, http'⟩ := x
    dsimp only at htook hcount hall ⊢
    refine ⟨_, _, rfl, hfirst.trans htook, fun hflows hwanted => ?_⟩
    have := hall (hfirst.flows hflows) (by omega)
    rw [length_append, hlen]
    omega

end

end SwApi.HttpFile
