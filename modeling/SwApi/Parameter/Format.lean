import SwApi.Parameter.FileDepot
import SwApi.Parameter.Store

/-! The text of the file, as the writer makes it and the reader takes it. -/
namespace SwApi.Parameter
open Library List Option

theorem onGatherPara_step (hpos : pos < t.pnum) :
    onGatherPara t d pos = if (t.plist pos).depot = some d then some (pos + 1, t.plist pos)
      else onGatherPara t d (pos + 1) := by
  have hrange : range' pos (t.pnum - pos) = pos :: range' (pos + 1) (t.pnum - (pos + 1)) := by
    rw [show t.pnum - pos = t.pnum - (pos + 1) + 1 by omega]
    rfl
  rw [onGatherPara, hrange, find?_cons]
  split
  · rename_i h
    rw [if_pos (of_decide_eq_true h)]
    rfl
  · rename_i h
    rw [if_neg (of_decide_eq_false h)]
    rfl

theorem gatherAll_eq (left pos fuel : Nat) (hpos : pos + left = t.pnum) (hfuel : left < fuel) :
    gatherAll t d fuel pos = ((range' pos left).map t.plist).filter fun p => p.depot = some d := by
  induction left generalizing pos fuel with
  | zero =>
    cases fuel with
    | zero => rfl
    | succ fuel => simp [gatherAll, onGatherPara, ← hpos]
  | succ left ih =>
    cases fuel with
    | zero => omega
    | succ fuel =>
      have hstep := onGatherPara_step (d := d) (show pos < t.pnum by omega)
      rw [range'_succ, map_cons]
      by_cases hown : (t.plist pos).depot = some d
      · rw [if_pos hown] at hstep
        rw [filter_cons_of_pos (by simpa using hown), ← ih (pos + 1) fuel (by omega) (by omega),
          gatherAll, hstep]
      · rw [if_neg hown] at hstep
        rw [filter_cons_of_neg (by simpa using hown),
          ← ih (pos + 1) (fuel + 1) (by omega) (by omega), gatherAll, hstep, gatherAll]

theorem gatherAll_entries (t : Table) (d : Depot) :
    gatherAll t d (t.pnum + 1) 0 = t.entries.filter (·.depot = some d) := by
  rw [gatherAll_eq t.pnum 0 (t.pnum + 1) (by omega) (by omega), ← range_eq_range']
  rfl

theorem Holds.gatherAll_eq (h : Holds d t m) : gatherAll t d (t.pnum + 1) 0 = t.entries := by
  rw [gatherAll_entries, filter_eq_self]
  intro p hp
  exact decide_eq_true (h.owned p hp)

def lineText (e : CString × CString) : Bytes := e.1.bytes ++ equalSign ++ e.2.bytes

/-- The line as it comes out of the buffer: long ones may be cut off. -/
def Written (e : CString × CString) (line : Bytes) : Prop :=
  ∃ n, 6144 ≤ n ∧ line = (lineText e).take n

def endedLines (lines : List Bytes) : Bytes := lines.flatMap (· ++ [10])

def totalLine (n : Nat) : Bytes := totalTag ++ decimal n ++ [10]

def fileText (lines : List Bytes) : Bytes :=
  versionLine ++ (endedLines lines ++ totalLine lines.length)

theorem Writing.flush_text (w : Writing) : w.flush.out ++ w.flush.buf = w.out ++ w.buf := by
  unfold Writing.flush
  split
  · rw [append_assoc, take_append_drop]
  · rfl

theorem Writing.flush_length (w : Writing) : w.flush.buf.length < 2048 := by
  unfold Writing.flush
  split
  · simp only [length_drop]
    omega
  · omega

def Writing.Inside (w : Writing) : Prop := ∀ r ∈ w.ranges, r.2 ≤ bufSize

theorem Writing.Inside.flush {w : Writing} (h : w.Inside) (hbuf : w.buf.length ≤ bufSize) :
    w.flush.Inside := by
  unfold Writing.flush
  split
  · exact forall_mem_append.2 ⟨h, forall_mem_singleton.2 hbuf⟩
  · exact h

section
variable {w : Writing} {e : CString × CString}

theorem bufSize_eq : bufSize = 8192 := rfl

theorem Writing.line_spec (hbuf : w.buf.length < 2048) (hinside : w.Inside)
    (hname : p.name = some e.1) (hvalue : p.value.getD .empty = e.2) (hshort : e.1.strlen < 256) :
    ∃ w' line, w.line p = some w' ∧ Written e line ∧
      w'.out ++ w'.buf = w.out ++ w.buf ++ (line ++ [10]) ∧ w'.buf.length < 2048 ∧ w'.Inside ∧
      w'.paracnt = w.paracnt + 1 := by
  have hsize := bufSize_eq
  have hroom : w.buf.length + e.1.strlen + 3 ≤ bufSize := by omega
  let len := min (w.buf ++ lineText e).length (bufSize - 1)
  let sign := w.buf.length + e.1.strlen
  let w₁ : Writing :=
    ⟨(w.buf ++ lineText e).take len ++ [10], w.out, w.paracnt + 1,
      w.ranges ++ copied w.buf.length e.1.strlen :: (sign, sign + 3) ::
        (p.value.toList.map (fun v => copied (sign + 3) v.strlen) ++ [(len, len + 1)])⟩
  have hline : w.line p = some w₁.flush := by
    simp only [Writing.line, hname, hvalue, bind_eq_bind, bind_some, if_pos hroom, w₁, len, sign,
      lineText, append_assoc]
  have hcut : w₁.buf = w.buf ++ (lineText e).take (bufSize - 1 - w.buf.length) ++ [10] := by
    change (w.buf ++ lineText e).take (min (w.buf ++ lineText e).length (bufSize - 1)) ++ [10] = _
    rw [Nat.min_comm, ← take_take, take_length, take_append, take_of_length_le]
    omega
  have hinside₁ : w₁.Inside := by
    have hlen : len ≤ bufSize - 1 := Nat.min_le_right ..
    simp only [Writing.Inside, w₁, copied, sign, forall_mem_append, forall_mem_cons,
      List.forall_mem_map]
    exact ⟨hinside, by omega, hroom, fun v _ => by omega, by omega, forall_mem_nil _⟩
  have hlength : w₁.buf.length ≤ bufSize := by
    simp only [w₁, len, length_append, length_take, length_singleton]
    omega
  refine ⟨w₁.flush, _, hline, ⟨bufSize - 1 - w.buf.length, by omega, rfl⟩, ?_, w₁.flush_length,
    hinside₁.flush hlength, ?_⟩
  · rw [w₁.flush_text, hcut]
    simp [w₁]
  · unfold Writing.flush
    split <;> rfl

theorem Writing.lines_spec (hbuf : w.buf.length < 2048) (hinside : w.Inside)
    (hpairs : ps.map (fun p => (p.name, p.value.getD .empty)) = es.map fun e => (some e.1, e.2))
    (hshort : ∀ e ∈ es, e.1.strlen < 256) : ∃ w' lines, w.lines ps = some w' ∧
    Forall₂ Written es lines ∧
      w'.out ++ w'.buf = w.out ++ w.buf ++ endedLines lines ∧
      w'.paracnt = w.paracnt + lines.length ∧ w'.buf.length < 2048 ∧ w'.Inside := by
  induction es generalizing w ps with
  | nil =>
    rw [map_nil, map_eq_nil_iff] at hpairs
    subst hpairs
    exact ⟨w, [], rfl, .nil, by simp [endedLines], rfl, hbuf, hinside⟩
  | cons e es ih =>
    cases ps with
    | nil => cases hpairs
    | cons p ps =>
      rw [map_cons, map_cons, List.cons.injEq, Prod.mk.injEq] at hpairs
      obtain ⟨he, hshort⟩ := forall_mem_cons.1 hshort
      obtain ⟨w₁, line, hline, hwritten, htext, hbuf₁, hinside₁, hcnt⟩ :=
        w.line_spec hbuf hinside hpairs.1.1 hpairs.1.2 he
      obtain ⟨w₂, lines, hlines, hall, htext₂, hcnt₂, hbuf₂, hinside₂⟩ :=
        ih hbuf₁ hinside₁ hpairs.2 hshort
      refine ⟨w₂, line :: lines, ?_, .cons hwritten hall, ?_, ?_, hbuf₂, hinside₂⟩
      · rw [Writing.lines, hline]
        exact hlines
      · rw [htext₂, htext, endedLines, endedLines, flatMap_cons]
        simp
      · rw [hcnt₂, hcnt, length_cons]
        omega

end

theorem ifileSaveFile_spec (hgather : gatherAll t d (t.pnum + 1) 0 = ps)
    (hpairs : ps.map (fun p => (p.name, p.value.getD .empty)) = es.map fun e => (some e.1, e.2))
    (hshort : ∀ e ∈ es, e.1.strlen < 256) : ∃ lines, Forall₂ Written es lines ∧
      ifileSaveFile t d = some (fileText lines) ∧
      (es.length ≤ maxParaNum → ∀ r ∈ saveAccesses t d, r.2 ≤ bufSize) := by
  obtain ⟨w, lines, hlines, hwritten, htext, hcnt, hbuf, hinside⟩ := Writing.lines_spec
    (w := ⟨versionLine, [], 0, [copied 0 versionLine.length]⟩) (by decide)
    (forall_mem_singleton.2 (by decide)) hpairs hshort
  have hfile : w.out ++ w.buf = versionLine ++ endedLines lines := htext
  have hcnt : w.paracnt = lines.length := by rw [hcnt]; exact Nat.zero_add _
  have hsaved : savedFile t d = some ⟨w.buf ++ totalLine w.paracnt,
    w.out ++ (w.buf ++ totalLine w.paracnt), w.paracnt,
      w.ranges ++ [copied w.buf.length (totalLine w.paracnt).length,
        (0, (w.buf ++ totalLine w.paracnt).length)]⟩ := by
    rw [savedFile, hgather, hlines]
    simp [totalLine]
  refine ⟨lines, hwritten, ?_, fun hcount => ?_⟩
  · rw [ifileSaveFile, hsaved, map_some, ← append_assoc, hfile, hcnt, append_assoc]
    rfl
  · rw [hwritten.length_eq, ← hcnt] at hcount
    have hdigits : (decimal w.paracnt).length ≤ 4 :=
      decimal_length (Nat.lt_of_le_of_lt hcount (by decide))
    have hsize := bufSize_eq
    simp only [saveAccesses, hsaved, elim_some, forall_mem_append, forall_mem_cons, copied,
      totalLine, totalTag, length_append, length_cons, length_nil]
    exact ⟨hinside, by omega, by omega, forall_mem_nil _⟩

theorem Holds.ifileSaveFile_eq {d : Depot} (h : Holds d t m) (hshort : ∀ e ∈ m.entries,
    e.1.strlen < 256) :
    ∃ lines, Forall₂ Written m.entries lines ∧ ifileSaveFile t d = some (fileText lines) := by
  have hpairs := congrArg (List.map fun e => (e.1, e.2.getD .empty)) h.pairs
  rw [Table.pairs, ParamMap.pairs, List.map_map, List.map_map] at hpairs
  obtain ⟨lines, hwritten, hsave, -⟩ := ifileSaveFile_spec h.gatherAll_eq hpairs hshort
  exact ⟨lines, hwritten, hsave⟩

theorem lines_eq (h : Forall₂ Written es lines) (hs : ∀ e ∈ es, (lineText e).length ≤ 6144) :
    lines = es.map lineText := by
  induction h with
  | nil => rfl
  | cons hwritten _ ih =>
    obtain ⟨n, hn, rfl⟩ := hwritten
    rw [map_cons, take_of_length_le ((hs _ mem_cons_self).trans hn), ih (forall_mem_cons.1 hs).2]

def Para.Short (p : Para) : Prop :=
  (∃ name ∈ p.name, 1 ≤ name.strlen ∧ name.strlen ≤ 255) ∧ ∀ value ∈ p.value, value.strlen ≤ 5800

def Para.pair (p : Para) : CString × CString := (p.name.getD .empty, p.value.getD .empty)

/-- The file is the plain concatenation, and every access to the buffer lies in it. -/
theorem ifileSaveFile_exact {t : Table} {d : Depot} (hcount : t.pnum ≤ maxParaNum)
    (hshort : ∀ p ∈ t.entries, p.depot = some d → p.Short) :
    ifileSaveFile t d = some (fileText ((t.entries.filter (·.depot = some d)).map fun p =>
      lineText p.pair)) ∧ ∀ r ∈ saveAccesses t d, r.2 ≤ bufSize := by
  have hgather := gatherAll_entries t d
  have hlength := length_filter_le (·.depot = some d) t.entries
  rw [Table.entries, cells_length, ← Table.entries] at hlength
  have hfits : ∀ p ∈ t.entries.filter (·.depot = some d), p.name = some p.pair.1 ∧
    p.pair.1.strlen < 256 ∧ (lineText p.pair).length ≤ 6144 := by
    intro p hp
    obtain ⟨hp, hd⟩ := mem_filter.1 hp
    obtain ⟨⟨name, hname, -, hle⟩, hvalue⟩ := hshort p hp (of_decide_eq_true hd)
    have hlen : (p.value.getD .empty).strlen ≤ 5800 := by
      cases hv : p.value with
      | none => exact Nat.zero_le _
      | some value => exact hvalue value hv
    rw [Para.pair, mem_def.1 hname]
    refine ⟨rfl, Nat.lt_succ_of_le hle, ?_⟩
    simp only [lineText, getD_some, length_append, equalSign, length_cons, length_nil]
    unfold CString.strlen at hle hlen
    omega
  generalize t.entries.filter (·.depot = some d) = ps at hgather hlength hfits ⊢
  have hpairs : ps.map (fun p => (p.name, p.value.getD .empty)) = (ps.map Para.pair).map fun e =>
    (some e.1, e.2) := by
    rw [List.map_map]
    exact map_congr_left fun p hp => Prod.ext (hfits p hp).1 rfl
  obtain ⟨lines, hwritten, hsave, hinside⟩ :=
    ifileSaveFile_spec hgather hpairs (List.forall_mem_map.2 fun p hp => (hfits p hp).2.1)
  rw [lines_eq hwritten (List.forall_mem_map.2 fun p hp => (hfits p hp).2.2), List.map_map] at hsave
  exact ⟨hsave, hinside (by rw [length_map]; exact hlength.trans hcount)⟩

def longValue : CString := ⟨replicate 5800 120, fun h => absurd (eq_of_mem_replicate h) (by decide)⟩

/-- A parameter without a value, and one whose value is as long as it may be. -/
def longPara : Table :=
  { swParameterInit with
    plist := fun i =>
      if i = 0 then ⟨some (cstring [97]), none, false, false, some (swIfiledepotOpen 1)⟩
      else ⟨some (cstring [98]), some longValue, false, false, some (swIfiledepotOpen 1)⟩
    pnum := 2 }

/-- Of the 5821 bytes in the buffer 4096 are written out, and the others are moved to its front. -/
theorem ifileSaveFile_exact_long :
    ifileSaveFile longPara (swIfiledepotOpen 1) =
      some (fileText [[97, 32, 61, 32], [98, 32, 61, 32] ++ longValue.bytes]) ∧
    (∀ r ∈ saveAccesses longPara (swIfiledepotOpen 1), r.2 ≤ bufSize) ∧
    (0, 5821) ∈ saveAccesses longPara (swIfiledepotOpen 1) := by
  have hshort : ∀ p ∈ longPara.entries, p.depot = some (swIfiledepotOpen 1) → p.Short := by
    intro p hp _
    rcases mem_cons.1 hp with rfl | hp
    · exact ⟨⟨cstring [97], rfl, by decide, by decide⟩, fun _ h => by cases h⟩
    · obtain rfl := mem_singleton.1 hp
      refine ⟨⟨cstring [98], rfl, by decide, by decide⟩, fun value h => ?_⟩
      cases h
      exact length_replicate.le
  have h := ifileSaveFile_exact (t := longPara) (by decide) hshort
  exact ⟨h.1, h.2, by decide +kernel⟩

theorem fgets_append (n : Nat) (input : Bytes) :
    (fgets n input).1 ++ (fgets n input).2 = input := by
  induction n generalizing input with
  | zero => rfl
  | succ n ih =>
    cases input with
    | nil => rfl
    | cons c input =>
      rw [fgets]
      split
      · rfl
      · exact congrArg (c :: ·) (ih input)

theorem fgets_ne_nil (hn : 0 < n) (h : input ≠ []) : (fgets n input).1 ≠ [] := by
  cases n with
  | zero => omega
  | succ n =>
    cases input with
    | nil => exact absurd rfl h
    | cons c input =>
      rw [fgets]
      split
      · exact cons_ne_nil c []
      · exact cons_ne_nil c _

theorem fgets_length_lt (hn : 0 < n) (h : input ≠ []) :
    (fgets n input).2.length < input.length := by
  have hlen := congrArg List.length (fgets_append n input)
  rw [length_append] at hlen
  have hpos := length_pos_iff.2 (fgets_ne_nil hn h)
  omega

theorem fgets_before (n : Nat) (text rest : Bytes) :
    fgets n (text ++ 10 :: rest) = ((fgets n (text ++ [10])).1,
    (fgets n (text ++ [10])).2 ++ rest) := by
  induction n generalizing text with
  | zero => simp [fgets]
  | succ n ih =>
    cases text with
    | nil => rfl
    | cons c text =>
      rw [cons_append, cons_append, fgets, fgets]
      split
      · simp
      · rw [ih text]

theorem fgets_line (hline : 10 ∉ line) (hlen : line.length < n) :
    fgets n (line ++ [10]) = (line ++ [10], []) := by
  induction line generalizing n with
  | nil =>
    cases n with
    | zero => simp at hlen
    | succ n => rfl
  | cons c line ih =>
    rw [mem_cons, not_or] at hline
    cases n with
    | zero => simp at hlen
    | succ n =>
      rw [cons_append, fgets, if_neg (Ne.symm hline.1),
        ih hline.2 (by simpa using hlen)]

theorem fgets_full (hline : 10 ∉ line) (hlen : line.length = n) :
    fgets n (line ++ rest) = (line, rest) := by
  induction line generalizing n with
  | nil =>
    subst hlen
    rfl
  | cons c line ih =>
    rw [mem_cons, not_or] at hline
    subst hlen
    rw [cons_append, length_cons, fgets, if_neg (Ne.symm hline.1), ih hline.2 rfl]

theorem fgets_end (hline : 10 ∉ line) (hlen : line.length ≤ n) : fgets n line = (line, []) := by
  induction line generalizing n with
  | nil => cases n <;> rfl
  | cons c line ih =>
    rw [mem_cons, not_or] at hline
    cases n with
    | zero => simp at hlen
    | succ n => rw [fgets, if_neg (Ne.symm hline.1), ih hline.2 (by simpa using hlen)]

theorem lineRoom_pos : 0 < lineRoom := by decide

theorem Reading.lines_fuel (fuel fuel' : Nat) (r : Reading) (input : Bytes)
    (h : input.length ≤ fuel) (h' : input.length ≤ fuel') :
    Reading.lines fuel r input = Reading.lines fuel' r input := by
  induction fuel generalizing fuel' r input with
  | zero =>
    have hnil : input = [] := length_eq_zero_iff.1 (by omega)
    subst hnil
    cases fuel' <;> rfl
  | succ fuel ih =>
    cases input with
    | nil => cases fuel' <;> rfl
    | cons c input =>
      cases fuel' with
      | zero => simp at h'
      | succ fuel' =>
        have hlt := fgets_length_lt lineRoom_pos (cons_ne_nil c input)
        have hrest := fun r => ih fuel' r (fgets lineRoom (c :: input)).2 (by omega) (by omega)
        simp only [Reading.lines, hrest]

theorem Reading.all_eq (r : Reading) (h : text ≠ []) :
    r.all text = (r.line (fgets lineRoom text).1).bind fun r => r.all (fgets lineRoom text).2 := by
  cases text with
  | nil => exact absurd rfl h
  | cons c text =>
    have hlt := fgets_length_lt lineRoom_pos h
    have hrest := fun r => Reading.lines_fuel text.length (fgets lineRoom (c :: text)).2.length r
      (fgets lineRoom (c :: text)).2 (by simpa using Nat.lt_succ_iff.1 hlt) le_rfl
    simp only [Reading.all, length_cons, Reading.lines, bind_eq_bind, hrest]

theorem Reading.all_append (r : Reading) (text rest : Bytes) :
    r.all (text ++ 10 :: rest) = (r.all (text ++ [10])).bind fun r => r.all rest := by
  induction hlen : text.length using Nat.strong_induction_on generalizing r text with
  | _ len ih =>
    subst hlen
    have hne : text ++ [10] ≠ [] := by simp
    have happend := fgets_append lineRoom (text ++ [10])
    have hpiece := fgets_ne_nil lineRoom_pos hne
    rw [Reading.all_eq r (by simp), Reading.all_eq r hne, fgets_before lineRoom text rest]
    generalize fgets lineRoom (text ++ [10]) = pieces at happend hpiece
    obtain ⟨str, left⟩ := pieces
    rw [bind_assoc]
    congr 1
    funext r
    rcases eq_nil_or_concat left with rfl | ⟨text', c, rfl⟩
    · rfl
    · -- what is left of the text ends with the same line end
      rw [concat_eq_append, ← append_assoc] at happend
      obtain ⟨htext, hc⟩ := append_inj' happend rfl
      cases List.cons.inj hc |>.1
      have hshorter : text'.length < text.length := by
        have hl := congrArg List.length htext
        rw [length_append] at hl
        have := length_pos_iff.2 hpiece
        simp only at this hl
        omega
      have hnext := ih text'.length hshorter r text' rfl
      rw [concat_eq_append, append_assoc]
      exact hnext

end SwApi.Parameter
