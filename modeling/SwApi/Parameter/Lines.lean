import SwApi.Parameter.Format

/-! Single lines, whole and cut off. -/
namespace SwApi.Parameter
open Library List Option

/-- The names the file is made for: no blank, tab, colon, equal sign, CR or LF, and
no `#` at the beginning. -/
structure NameOk (name : CString) : Prop where
  nonempty : name.bytes ≠ []
  short : name.strlen < 256
  plain : ∀ c ∈ name.bytes, c ∉ [32, 9, 58, 61, 13, 10]
  uncommented : name.bytes.head? ≠ some 35

/-- The values that can be told from what is around them: no CR or LF, and no
blank, tab, colon or equal sign at the beginning. -/
structure ValueOk (value : CString) : Prop where
  oneLine : ∀ c ∈ value.bytes, c ∉ [13, 10]
  start : ∀ c ∈ value.bytes.head?, c ∉ [32, 9, 58, 61]

structure Storable (e : CString × CString) : Prop where
  value : ValueOk e.2
  fits : e.1.strlen + 3 + e.2.strlen ≤ lineRoom

instance (name : CString) : Decidable (NameOk name) :=
  decidable_of_iff (name.bytes ≠ [] ∧ name.strlen < 256 ∧
      name.bytes.all (fun c => !([32, 9, 58, 61, 13, 10] : Bytes).elem c) = true ∧
      name.bytes.head? ≠ some 35)
    ⟨fun h => ⟨h.1, h.2.1, by simpa using h.2.2.1, h.2.2.2⟩,
      fun h => ⟨h.nonempty, h.short, by simpa using h.plain, h.uncommented⟩⟩

instance (value : CString) : Decidable (ValueOk value) :=
  decidable_of_iff (value.bytes.all (fun c => !([13, 10] : Bytes).elem c) = true ∧
      value.bytes.head?.toList.all (fun c => !([32, 9, 58, 61] : Bytes).elem c) = true)
    ⟨fun h => ⟨by simpa using h.1, by simpa using h.2⟩,
      fun h => ⟨by simpa using h.oneLine, by simpa using h.start⟩⟩

instance (e : CString × CString) : Decidable (Storable e) :=
  decidable_of_iff (ValueOk e.2 ∧ e.1.strlen + 3 + e.2.strlen ≤ lineRoom)
    ⟨fun h => ⟨h.1, h.2⟩, fun h => ⟨h.value, h.fits⟩⟩

theorem isSeparator_iff : isSeparator c = true ↔ c ∈ [32, 9, 58, 61] := by
  simp only [isSeparator, Bool.or_eq_true, decide_eq_true_eq, List.mem_cons, not_mem_nil,
    or_false]
  tauto

theorem isLineEnd_iff : isLineEnd c = true ↔ c ∈ [13, 10] ∨ c = 0 := by
  simp [isLineEnd]

theorem isSeparator_of_mem_equalSign (h : c ∈ equalSign) : isSeparator c = true := by
  simp only [equalSign, List.mem_cons, not_mem_nil, or_false] at h
  rcases h with rfl | rfl | rfl <;> rfl

theorem isBlank_eq_false (hs : isSeparator c = false) (he : isLineEnd c = false) :
    isBlank c = false := by
  simp only [isSeparator, isLineEnd, isBlank, Bool.or_eq_false_iff] at hs he ⊢
  exact ⟨⟨⟨hs.1.1.1, hs.2⟩, he.1.1⟩, he.1.2⟩

theorem NameOk.not_separator (h : NameOk name) (hc : c ∈ name.bytes) :
    isSeparator c = false ∧ isLineEnd c = false := by
  have hplain := h.plain c hc
  constructor
  · rw [Bool.eq_false_iff, Ne, isSeparator_iff]
    intro hs
    apply hplain
    simp only [List.mem_cons, not_mem_nil, or_false] at hs ⊢
    tauto
  · rw [Bool.eq_false_iff, Ne, isLineEnd_iff]
    rintro (he | rfl)
    · apply hplain
      simp only [List.mem_cons, not_mem_nil, or_false] at he ⊢
      tauto
    · exact name.nulFree hc

theorem ValueOk.not_lineEnd (h : ValueOk value) (hc : c ∈ value.bytes) : isLineEnd c = false := by
  rw [Bool.eq_false_iff, Ne, isLineEnd_iff]
  rintro (he | rfl)
  · exact h.oneLine c hc he
  · exact value.nulFree hc

theorem ValueOk.take (h : ValueOk value) (n : Nat) : ValueOk (value.take n) := by
  refine ⟨fun c hc => h.oneLine c (mem_of_mem_take hc), ?_⟩
  intro c hc
  apply h.start c
  cases n with
  | zero => cases hc
  | succ n =>
    have hhead : (value.bytes.take (n + 1)).head? = some c := hc
    rw [head?_take, if_neg (by omega)] at hhead
    exact hhead

theorem parseText_pair (hname : ∀ c ∈ name, isSeparator c = false ∧ isLineEnd c = false)
    (hne : name ≠ []) (hhead : name.head? ≠ some 35) (hsep : ∀ c ∈ sep, isSeparator c = true)
    (hvalue : ∀ c ∈ value, isLineEnd c = false) (hstart : ∀ c ∈ value.head?, isSeparator c = false)
    (heol : eol = [] ∨ eol = [10]) (hend : sep = [] → value = [] ∧ eol = [] ∧ full = false) :
    parseText (name ++ (sep ++ (value ++ eol))) full =
    some (.pair (cstring name) (cstring value)) := by
  have hcomment : (name ++ (sep ++ (value ++ eol))).head? ≠ some 35 := by
    rw [head?_append_of_ne_nil _ hne]
    exact hhead
  have hstop : (sep ++ (value ++ eol)).takeWhile (fun c => !isSeparator c && !isLineEnd c) =
    [] := by
    cases sep with
    | nil =>
      obtain ⟨rfl, rfl, -⟩ := hend rfl
      rfl
    | cons c sep =>
      rw [cons_append, takeWhile_cons, hsep c mem_cons_self]
      rfl
  have hnamed : (name ++ (sep ++ (value ++ eol))).takeWhile
      (fun c => !isSeparator c && !isLineEnd c) = name := by
    rw [takeWhile_append_of_pos, hstop, append_nil]
    intro c hc
    rw [(hname c hc).1, (hname c hc).2]
    rfl
  have hroom : ¬(full = true ∧ sep ++ (value ++ eol) = []) := by
    rintro ⟨hfull, hnil⟩
    have hsepnil : sep = [] := (append_eq_nil_iff.1 hnil).1
    rw [(hend hsepnil).2.2] at hfull
    cases hfull
  have hskip : ((sep ++ (value ++ eol)).drop 1).dropWhile isSeparator = value ++ eol := by
    cases sep with
    | nil =>
      obtain ⟨rfl, rfl, -⟩ := hend rfl
      rfl
    | cons c sep =>
      rw [cons_append, drop_succ_cons, drop_zero,
        dropWhile_append_of_pos (forall_mem_cons.1 hsep).2]
      cases value with
      | nil => rcases heol with rfl | rfl <;> rfl
      | cons v value =>
        rw [cons_append, dropWhile_cons, hstart v rfl]
        rfl
  have hvalued : (value ++ eol).takeWhile (fun c => !isLineEnd c) = value := by
    rw [takeWhile_append_of_pos]
    · rcases heol with rfl | rfl <;> exact append_nil value
    · intro c hc
      rw [hvalue c hc]
      rfl
  simp only [parseText, if_neg hcomment, hnamed, drop_left, if_neg hroom, hskip, hvalued,
    if_neg hne]

theorem parseLine_eq (hlen : 2 ≤ str.length) (hnul : 0 ∉ str) (hhead : ∀ c ∈ str.head?,
    isBlank c = false) : parseLine str = parseText str (str.length = lineRoom) := by
  have hshort : ¬(str.length < 2 ∨ str[0]? = some 0 ∨ str[1]? = some 0) := by
    rintro (h | h | h)
    · omega
    · exact hnul (mem_of_getElem? h)
    · exact hnul (mem_of_getElem? h)
  have hskip : str.dropWhile isBlank = str := by
    cases str with
    | nil => rfl
    | cons c str =>
      rw [dropWhile_cons, hhead c rfl]
      rfl
  rw [parseLine, if_neg hshort, hskip]

section
variable {e : CString × CString}

theorem lineText_length : (lineText e).length = e.1.strlen + 3 + e.2.strlen := by
  simp [lineText, equalSign, CString.strlen]
  omega

theorem lineText_take : (lineText e).take c = (e.1.take c).bytes ++
    (equalSign.take (c - e.1.strlen) ++ (e.2.take (c - e.1.strlen - 3)).bytes) := by
  rw [lineText, append_assoc, take_append, take_append]
  rfl

theorem NameOk.take (h : NameOk e.1) (hc : 0 < c) :
    (∀ b ∈ (e.1.take c).bytes, isSeparator b = false ∧ isLineEnd b = false) ∧
    (e.1.take c).bytes ≠ [] ∧ (e.1.take c).bytes.head? = e.1.bytes.head? := by
  refine ⟨fun b hb => h.not_separator (mem_of_mem_take hb), ?_, ?_⟩
  · have hne := h.nonempty
    simp only [CString.take, ne_eq, take_eq_nil_iff]
    rintro (h0 | hnil)
    · omega
    · exact hne hnil
  · simp only [CString.take]
    rw [head?_take, if_neg (by omega)]

theorem NameOk.head_not_blank (h : NameOk e.1) (hc : 0 < c) (rest : Bytes) :
    ∀ b ∈ ((e.1.take c).bytes ++ rest).head?, isBlank b = false := by
  intro b hb
  obtain ⟨hplain, hne, -⟩ := h.take hc
  rw [head?_append_of_ne_nil _ hne] at hb
  have hmem := hplain b (mem_of_mem_head? hb)
  exact isBlank_eq_false hmem.1 hmem.2

/-- A line cut off behind `c` bytes is read as a parameter with what is left of the
name and of the value. -/
theorem parseLine_take (hn : NameOk e.1) (hv : ValueOk e.2) (hc : 2 ≤ c)
    (hle : c ≤ (lineText e).length) :
    parseLine ((lineText e).take c) = some (.pair (e.1.take c)
    (e.2.take (c - e.1.strlen - 3))) := by
  obtain ⟨hplain, hne, hhead⟩ := hn.take (show 0 < c by omega)
  have hnul : 0 ∉ (lineText e).take c := by
    rw [lineText_take, mem_append, mem_append]
    rintro (h | h | h)
    · exact (e.1.take c).nulFree h
    · exact absurd (mem_of_mem_take h) (by decide)
    · exact (e.2.take _).nulFree h
  have hlen : ((lineText e).take c).length = c := by
    rw [length_take]
    omega
  have hblank : ∀ b ∈ ((lineText e).take c).head?, isBlank b = false := by
    rw [lineText_take]
    exact hn.head_not_blank (by omega) _
  rw [parseLine_eq (by omega) hnul hblank, hlen, lineText_take]
  have hsep : ∀ b ∈ equalSign.take (c - e.1.strlen), isSeparator b = true :=
    fun b hb => isSeparator_of_mem_equalSign (mem_of_mem_take hb)
  have hstart : ∀ b ∈ (e.2.take (c - e.1.strlen - 3)).bytes.head?, isSeparator b = false := by
    intro b hb
    rw [Bool.eq_false_iff, Ne, isSeparator_iff]
    exact (hv.take _).start b hb
  have hend : equalSign.take (c - e.1.strlen) = [] → (e.2.take (c - e.1.strlen - 3)).bytes = [] ∧
      ([] : Bytes) = [] ∧ decide (c = lineRoom) = false := by
    intro hnil
    have hshort : c ≤ e.1.strlen := by
      rcases take_eq_nil_iff.1 hnil with h | h
      · omega
      · cases h
    have hroom := hn.short
    refine ⟨?_, rfl, decide_eq_false ?_⟩
    · have hzero : c - e.1.strlen - 3 = 0 := by omega
      rw [hzero]
      rfl
    · have : lineRoom = 4095 := rfl
      omega
  have hpair := parseText_pair hplain hne (hhead ▸ hn.uncommented) hsep
    (fun b hb => (hv.take _).not_lineEnd hb) hstart (.inl rfl) hend
  rw [append_nil] at hpair
  rw [hpair, cstring_eq rfl, cstring_eq rfl]

theorem parseLine_line (hn : NameOk e.1) (hv : ValueOk e.2) :
    parseLine (lineText e ++ [10]) = some (.pair e.1 e.2) := by
  have hlen := lineText_length (e := e)
  have hpos := length_pos_iff.2 hn.nonempty
  have htext : lineText e ++ [10] = e.1.bytes ++ (equalSign ++ (e.2.bytes ++ [10])) := by
    simp [lineText]
  have hnul : 0 ∉ lineText e ++ [10] := by
    rw [htext, mem_append, mem_append, mem_append]
    rintro (h | h | h | h)
    · exact e.1.nulFree h
    · exact absurd h (by decide)
    · exact e.2.nulFree h
    · exact absurd h (by decide)
  have hblank : ∀ b ∈ (lineText e ++ [10]).head?, isBlank b = false := by
    rw [htext]
    intro b hb
    rw [head?_append_of_ne_nil _ hn.nonempty] at hb
    have hmem := hn.not_separator (mem_of_mem_head? hb)
    exact isBlank_eq_false hmem.1 hmem.2
  rw [parseLine_eq (by rw [length_append]; omega) hnul hblank, htext,
    parseText_pair (fun b hb => hn.not_separator hb) hn.nonempty hn.uncommented
      (fun b hb => isSeparator_of_mem_equalSign hb) (fun b hb => hv.not_lineEnd hb) ?_ (.inr rfl)
        (fun h => by cases h), cstring_eq rfl, cstring_eq rfl]
  intro b hb
  rw [Bool.eq_false_iff, Ne, isSeparator_iff]
  exact hv.start b hb

theorem lf_not_mem_lineText (hn : NameOk e.1) (hv : ValueOk e.2) : 10 ∉ lineText e := by
  rw [lineText, mem_append, mem_append]
  rintro ((h | h) | h)
  · exact hn.plain 10 h (by decide)
  · exact absurd h (by decide)
  · exact hv.oneLine 10 h (by decide)

def Reading.add (r : Reading) (pairs : List (CString × CString)) : Reading :=
  { r with pairs := r.pairs ++ pairs }

theorem Reading.add_nil (r : Reading) : r.add [] = r := by
  rw [Reading.add, append_nil]

theorem Reading.add_add (r : Reading) (pairs pairs' : List (CString × CString)) :
    (r.add pairs).add pairs' = r.add (pairs ++ pairs') := by
  simp [Reading.add]

variable {r : Reading}

theorem Reading.line_pair (h : parseLine str = some (.pair name value)) :
    r.line str = some (r.add [(name, value)]) := by
  rw [Reading.line, h]
  rfl

theorem Reading.all_piece (hne : text ≠ []) (hline : 10 ∉ text) (hlen : text.length ≤ lineRoom) :
    r.all text = r.line text := by
  rw [Reading.all_eq r hne, fgets_end hline hlen]
  exact bind_fun_some (r.line text)

theorem Reading.all_line (hn : NameOk e.1) (hs : Storable e) :
    r.all (lineText e ++ [10]) = some (r.add [e]) := by
  have hline := lf_not_mem_lineText hn hs.value
  have hlen := lineText_length (e := e)
  have hfits := hs.fits
  by_cases hfull : (lineText e).length < lineRoom
  · rw [Reading.all_eq r (by simp), fgets_line hline hfull,
      Reading.line_pair (parseLine_line hn hs.value)]
    rfl
  · -- the line end alone is the next piece
    have hroom : (lineText e).length = lineRoom := by omega
    have hwhole := parseLine_take hn hs.value (c := (lineText e).length) (by omega) le_rfl
    have hname : e.1.take (lineText e).length = e.1 := by
      apply CString.ext
      apply take_of_length_le
      have : e.1.strlen = e.1.bytes.length := rfl
      omega
    have hvalue : e.2.take ((lineText e).length - e.1.strlen - 3) = e.2 := by
      apply CString.ext
      apply take_of_length_le
      have : e.2.strlen = e.2.bytes.length := rfl
      omega
    rw [take_length, hname, hvalue] at hwhole
    rw [Reading.all_eq r (by simp), fgets_full hline hroom, Reading.line_pair hwhole]
    rfl

theorem valueOk_read (s : Bytes) :
    ValueOk (cstring ((s.dropWhile isSeparator).takeWhile fun c => !isLineEnd c)) ∧
    (cstring ((s.dropWhile isSeparator).takeWhile fun c => !isLineEnd c)).strlen ≤ s.length := by
  have hstart := head?_dropWhile_not isSeparator s
  have hlen : (s.dropWhile isSeparator).length ≤ s.length := (dropWhile_sublist _).length_le
  generalize s.dropWhile isSeparator = rest at hstart hlen
  have hmem : ∀ c ∈ rest.takeWhile (fun c => !isLineEnd c), isLineEnd c = false := by
    intro c hc
    simpa using mem_takeWhile_imp hc
  have hbytes : (cstring (rest.takeWhile fun c => !isLineEnd c)).bytes =
      rest.takeWhile fun c => !isLineEnd c := by
    apply cstring_bytes
    intro h0
    exact absurd (hmem 0 h0) (by decide)
  refine ⟨⟨?_, ?_⟩, ?_⟩
  · intro c hc hend
    have hno := hmem c (hbytes ▸ hc)
    rw [isLineEnd_iff.2 (.inl hend)] at hno
    cases hno
  · intro c hc hsep
    rw [hbytes] at hc
    cases rest with
    | nil => cases hc
    | cons b rest =>
      rw [takeWhile_cons] at hc
      split at hc
      · cases hc
        rw [← isSeparator_iff] at hsep
        exact absurd hsep (by simpa using hstart)
      · cases hc
  · rw [CString.strlen, hbytes]
    exact (takeWhile_sublist _).length_le.trans hlen

theorem parseLine_value (h : parseLine str = some (.pair name value)) :
    ValueOk value ∧ value.strlen < str.length := by
  unfold parseLine at h
  split at h
  · cases h
  · have hlen : (str.dropWhile isBlank).length ≤ str.length := (dropWhile_sublist _).length_le
    generalize str.dropWhile isBlank = p at h hlen
    unfold parseText at h
    split at h
    · split at h
      · cases h
      · split at h <;> cases h
    · dsimp only at h
      split at h
      · cases h
      · split at h
        · cases h
        · rename_i hne
          obtain ⟨-, rfl⟩ := Line.pair.inj (some.inj h)
          have hread := valueOk_read
            ((p.drop (p.takeWhile fun c => !isSeparator c && !isLineEnd c).length).drop 1)
          refine ⟨hread.1, lt_of_le_of_lt hread.2 ?_⟩
          have hpos := length_pos_iff.2 hne
          have hle := (takeWhile_sublist (l := p)
            fun c => !isSeparator c && !isLineEnd c).length_le
          simp only [length_drop]
          omega

theorem Reading.all_value (h : r.all text = some r') : ∃ pairs, r'.pairs = r.pairs ++ pairs ∧
      ∀ e ∈ pairs, ValueOk e.2 ∧ e.2.strlen < text.length := by
  induction hlen : text.length using Nat.strong_induction_on generalizing r text with
  | _ len ih =>
    subst hlen
    by_cases hnil : text = []
    · subst hnil
      cases h
      exact ⟨[], (append_nil _).symm, fun e he => by cases he⟩
    · have hlt := fgets_length_lt lineRoom_pos hnil
      have happend := congrArg List.length (fgets_append lineRoom text)
      rw [length_append] at happend
      rw [Reading.all_eq r hnil] at h
      obtain ⟨r₁, hline, hrest⟩ := bind_eq_some_iff.1 h
      obtain ⟨pairs, hpairs, hvalues⟩ := ih _ hlt hrest rfl
      have hfirst : ∃ first, r₁.pairs = r.pairs ++ first ∧
          ∀ e ∈ first, ValueOk e.2 ∧ e.2.strlen < text.length := by
        obtain ⟨line, hparse, hline⟩ := bind_eq_some_iff.1 hline
        cases line with
        | pair name value =>
          cases hline
          refine ⟨[(name, value)], rfl, ?_⟩
          intro e he
          cases mem_singleton.1 he
          obtain ⟨hok, hshort⟩ := parseLine_value hparse
          exact ⟨hok, lt_of_lt_of_le hshort (by omega)⟩
        | ignored | total n | version n =>
          cases hline
          exact ⟨[], (append_nil _).symm, fun e he => by cases he⟩
      obtain ⟨first, hfirst, hok⟩ := hfirst
      refine ⟨first ++ pairs, by rw [hpairs, hfirst, append_assoc],
        forall_mem_append.2 ⟨hok, fun e he => ?_⟩⟩
      obtain ⟨hv, hshort⟩ := hvalues e he
      exact ⟨hv, by omega⟩

end

end SwApi.Parameter
