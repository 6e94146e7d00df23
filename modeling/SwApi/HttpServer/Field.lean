import SwApi.HttpServer.Model
import SwApi.Library.Lists

/-! What `SWIOT_Common_Getval` finds in a header: the first line that begins with the name and has a
value. Behind the last line it looks at the beginning of what follows the header, too. -/
namespace SwApi.HttpServer
open Library List

def isNewline (c : UInt8) : Bool := c = 13 || c = 10

/-- The suffixes of a text at which a line begins, without the blanks before it. -/
def lineStarts : Bool → Bytes → List Bytes
  | _, [] => []
  | start, c :: rest =>
      if isNewline c then lineStarts true rest
      else if isBlank c then lineStarts start rest
      else if start then (c :: rest) :: lineStarts false rest
      else lineStarts false rest

theorem lineStarts_blank (hs : ∀ c ∈ s, isBlank c = true) :
    lineStarts true (s ++ rest) = lineStarts true rest := by
  induction s with
  | nil => rfl
  | cons c s ih =>
    have hc := hs c mem_cons_self
    rw [cons_append, lineStarts, if_pos hc, ih fun d hd => hs d (mem_cons_of_mem c hd), ite_self]

theorem lineStarts_inside (hs : ∀ c ∈ s, isNewline c = false) (he : isNewline e = true) :
    lineStarts false (s ++ e :: rest) = lineStarts true rest := by
  induction s with
  | nil => rw [nil_append, lineStarts, if_pos he]
  | cons c s ih =>
    have hc := hs c mem_cons_self
    rw [cons_append, lineStarts, if_neg (Bool.eq_false_iff.1 hc),
      ih fun d hd => hs d (mem_cons_of_mem c hd), if_neg Bool.false_ne_true, ite_self]

theorem lineStarts_line (hc : isBlank c = false) (hs : ∀ d ∈ c :: s, isNewline d = false)
    (he : isNewline e = true) :
    lineStarts true (c :: s ++ e :: rest) = (c :: s ++ e :: rest) :: lineStarts true rest := by
  have hnewline := hs c mem_cons_self
  rw [cons_append, lineStarts, if_neg (Bool.eq_false_iff.1 hnewline),
    if_neg (Bool.eq_false_iff.1 hc), if_pos rfl,
    lineStarts_inside (fun d hd => hs d (mem_cons_of_mem c hd)) he]

theorem lineOf_line (hs : ∀ c ∈ s, endsLine c = false) (he : endsLine e = true) :
    lineOf (s ++ e :: rest) = s := by
  rw [lineOf, takeWhile_append_of_pos (fun c hc => by rw [hs c hc]; rfl), takeWhile_cons, he]
  exact append_nil s

theorem exists_line (h : ∃ c ∈ s, endsLine c = true) :
    ∃ e rest, s = lineOf s ++ e :: rest ∧ endsLine e = true ∧
    ∀ c ∈ lineOf s, endsLine c = false := by
  induction s with
  | nil =>
    obtain ⟨c, hc, -⟩ := h
    exact absurd hc not_mem_nil
  | cons c s ih =>
    by_cases hend : endsLine c = true
    · refine ⟨c, s, ?_, hend, ?_⟩
      · rw [lineOf, takeWhile_cons, hend]
        rfl
      · rw [lineOf, takeWhile_cons, hend]
        exact forall_mem_nil _
    · have hline : lineOf (c :: s) = c :: lineOf s := by
        rw [lineOf, takeWhile_cons, Bool.eq_false_iff.2 hend]
        rfl
      obtain ⟨d, hd, hdend⟩ := h
      obtain ⟨e, rest, heq, he, hfree⟩ :=
        ih ⟨d, (mem_cons.1 hd).resolve_left fun e => hend (e ▸ hdend), hdend⟩
      refine ⟨e, rest, ?_, he, ?_⟩
      · rw [hline, cons_append, ← heq]
      · rw [hline]
        exact forall_mem_cons.2 ⟨Bool.eq_false_iff.2 hend, hfree⟩

def Matches (name s : Bytes) : Prop := name <+: s ∧ (lineOf s).any endsName = true
  deriving Decidable

theorem getvalLoop_zero (p : Bytes) : getvalLoop name valuelen (fuel + 1) p 0 = some none :=
  if_pos rfl

theorem getvalLoop_round (hleft : left ≠ 0) (hw : ∀ c ∈ w, isBlank c = true)
    (hblank : ∀ c ∈ (s ++ [e]).head?, isBlank c = false)
    (hs : ∀ c ∈ s, endsLine c = false) (he : endsLine e = true) :
    getvalLoop name valuelen (fuel + 1) (w ++ (s ++ e :: rest)) left =
      if Matches name (s ++ e :: rest) then fieldValue valuelen (s ++ e :: rest)
      else getvalLoop name valuelen fuel rest (left - (w.length + s.length + 1)) := by
  have hskip : (w ++ (s ++ e :: rest)).dropWhile isBlank = s ++ e :: rest := by
    rw [dropWhile_append_of_pos hw]
    cases s with
    | nil => simp [hblank e rfl]
    | cons c s => simp [hblank c rfl]
  have hlen : (w ++ (s ++ e :: rest)).length - rest.length = w.length + s.length + 1 := by
    simp only [length_append, length_cons]
    omega
  have hdrop : (s ++ e :: rest).drop (lineOf (s ++ e :: rest)).length = e :: rest := by
    rw [lineOf_line hs he, drop_left]
  rw [getvalLoop, if_neg hleft]
  dsimp only
  rw [hskip, hdrop]
  dsimp only
  rw [hlen]
  rfl

theorem prefix_line (hname : ∀ c ∈ name, endsLine c = false) (he : endsLine e = true)
    (s t : Bytes) : name <+: s ++ e :: t ↔ name <+: s := by
  constructor
  · rintro ⟨u, hu⟩
    rcases append_eq_append_iff.1 hu with ⟨v, rfl, -⟩ | ⟨v, rfl, hv⟩
    · exact prefix_append name v
    · cases v with
      | nil => exact ⟨[], by rw [append_nil, append_nil]⟩
      | cons d v =>
        cases hv
        exact absurd (he.symm.trans (hname e (mem_append_right s mem_cons_self)))
          Bool.true_eq_false.mp
  · intro h
    exact h.trans (prefix_append s _)

theorem matches_line (hname : ∀ c ∈ name, endsLine c = false) (hs : ∀ c ∈ s, endsLine c = false)
    (he : endsLine e = true) : Matches name (s ++ e :: t) ↔ name <+: s ∧ s.any endsName = true := by
  rw [Matches, prefix_line hname he, lineOf_line hs he]

theorem blanks_line (s : Bytes) : ∃ w r, s = w ++ r ∧ r = s.dropWhile isBlank ∧
    (∀ c ∈ w, isBlank c = true) ∧ ∀ c ∈ r.head?, isBlank c = false := by
  exact ⟨s.takeWhile isBlank, s.dropWhile isBlank, takeWhile_append_dropWhile.symm, rfl,
    fun c hc => mem_takeWhile_imp hc, fun c hc => head_dropWhile hc⟩

theorem getvalLoop_post (hw : ∀ c ∈ w, isBlank c = true) (hleft : left ≠ 0) (hle : left ≤ w.length)
    (hpost : 0 ∈ post) (hother : ¬name <+: post.dropWhile isBlank) :
    getvalLoop name valuelen (fuel + 2) (w ++ post) left = some none := by
  obtain ⟨w', r, hsplit, hr, hw', hhead⟩ := blanks_line post
  rw [hsplit] at hpost
  have hzero : 0 ∈ r := (mem_append.1 hpost).resolve_left fun h => absurd (hw' 0 h) (by decide)
  obtain ⟨e, rest, hline, he, hfree⟩ := exists_line ⟨0, hzero, by decide⟩
  generalize lineOf r = line at hline hfree
  subst hline
  have hhead' : ∀ c ∈ (line ++ [e]).head?, isBlank c = false := by
    cases line with
    | nil | cons d line => exact hhead
  have hnone : left - ((w ++ w').length + line.length + 1) = 0 := by
    rw [length_append]
    omega
  rw [hsplit, ← append_assoc, getvalLoop_round hleft (forall_mem_append.2 ⟨hw, hw'⟩) hhead' hfree
    he, if_neg fun hmatches => hother (hr ▸ hmatches.1), hnone]
  exact getvalLoop_zero rest

theorem endsLine_eq : endsLine c = (isNewline c || decide (c = 0)) := rfl

theorem isBlank_of_isNewline (h : isNewline c = true) : isBlank c = true := by
  unfold isNewline at h
  unfold isBlank
  rw [Bool.or_assoc _ (decide (c = 13)), h, Bool.or_true]

theorem header_cases (hlast : ∀ c ∈ header.getLast?, isNewline c = true) (hnul : 0 ∉ header) :
    (∀ c ∈ header, isBlank c = true) ∨ ∃ w c line e next, header = w ++ (c :: line ++ e :: next) ∧
      (∀ d ∈ w, isBlank d = true) ∧ isBlank c = false ∧ (∀ d ∈ c :: line, endsLine d = false) ∧
      isNewline e = true ∧ (∀ d ∈ next.getLast?, isNewline d = true) ∧ 0 ∉ next := by
  obtain ⟨w, r, rfl, -, hw, hhead⟩ := blanks_line header
  cases r with
  | nil =>
    rw [append_nil]
    exact .inl hw
  | cons c r =>
    have hc : isBlank c = false := hhead c rfl
    obtain ⟨d, hd⟩ := Option.isSome_iff_exists.1 (getLast?_isSome.2 (cons_ne_nil c r))
    have hdlast : isNewline d = true := hlast d (by rw [getLast?_append, hd]; rfl)
    obtain ⟨e, next, hline, he, hfree⟩ :=
      exists_line ⟨d, mem_of_getLast? hd, by rw [endsLine_eq, hdlast]; rfl⟩
    generalize lineOf (c :: r) = line at hline hfree
    have hnewline : isNewline e = true := by
      have he₀ : e ≠ 0 := by
        rintro rfl
        apply hnul
        rw [hline]
        exact mem_append_right w (mem_append_right line mem_cons_self)
      rwa [endsLine_eq, decide_eq_false he₀, Bool.or_false] at he
    cases line with
    | nil =>
      obtain ⟨rfl, -⟩ := cons.inj hline
      exact absurd (hc.symm.trans (isBlank_of_isNewline hnewline)) Bool.false_ne_true
    | cons d' line =>
      rw [cons_append] at hline
      obtain ⟨rfl, rfl⟩ := cons.inj hline
      refine .inr ⟨w, c, line, e, next, rfl, hw, hc, hfree, hnewline, fun d hd => ?_,
        fun hmem => ?_⟩
      · apply hlast
        rw [← cons_append, getLast?_append, getLast?_append, getLast?_cons, hd]
        rfl
      · exact hnul (mem_append_right w (mem_append_right (c :: line) (mem_cons_of_mem e hmem)))

/-- The lines of a header are looked at one after the other, and then the beginning of what follows
it. -/
theorem getvalLoop_header (hfuel : header.length < fuel) (hlast : ∀ c ∈ header.getLast?,
    isNewline c = true)
    (hnul : 0 ∉ header) (hname : ∀ c ∈ name, endsLine c = false) (hpost : 0 ∈ post)
    (hother : (∀ s ∈ lineStarts true header, ¬Matches name s) → ¬name <+: post.dropWhile isBlank) :
    getvalLoop name valuelen fuel (header ++ post) header.length =
      ((lineStarts true header).find? fun s => Matches name s).elim (some none) fun s =>
      fieldValue valuelen (s ++ post) := by
  induction fuel generalizing header with
  | zero => omega
  | succ fuel ih =>
    by_cases hnil : header = []
    · subst hnil
      exact getvalLoop_zero post
    have hleft : header.length ≠ 0 := fun hzero => hnil (length_eq_zero_iff.1 hzero)
    rcases header_cases hlast hnul with hw | ⟨w, c, line, e, next, rfl, hw, hc, hfree, hnewline,
      hlast', hnul'⟩
    · obtain ⟨fuel, rfl⟩ : ∃ n, fuel = n + 1 := ⟨fuel - 1, by omega⟩
      have hnone : lineStarts true header = [] := by
        rw [← append_nil header, lineStarts_blank hw]
        rfl
      rw [hnone] at hother ⊢
      exact getvalLoop_post hw hleft (Nat.le_refl _) hpost
        (hother fun s hs => absurd hs not_mem_nil)
    · have he : endsLine e = true := by
        rw [endsLine_eq, hnewline]
        rfl
      have hinside : ∀ d ∈ c :: line, isNewline d = false :=
        fun d hd => (Bool.or_eq_false_iff.1 (hfree d hd)).1
      have hshort : (w ++ (c :: line ++ e :: next)).length - (w.length + (c :: line).length + 1) =
        next.length := by
        simp only [length_append, length_cons]
        omega
      have hfuel' : next.length < fuel := by
        simp only [length_append, length_cons] at hfuel
        omega
      have hhead : ∀ d ∈ (c :: line ++ [e]).head?, isBlank d = false := by
        rintro d ⟨⟩
        exact hc
      rw [lineStarts_blank hw, lineStarts_line hc hinside hnewline] at hother ⊢
      rw [append_assoc, append_assoc, cons_append (a := e),
        getvalLoop_round hleft hw hhead hfree he, hshort, find?_cons]
      by_cases hmatches : name <+: c :: line ∧ (c :: line).any endsName = true
      · have hyes (t : Bytes) : Matches name (c :: line ++ e :: t) :=
          (matches_line hname hfree he).2 hmatches
        rw [if_pos (hyes _), decide_eq_true (hyes _), Option.elim_some, append_assoc,
          cons_append (a := e)]
      · have hnot (t : Bytes) : ¬Matches name (c :: line ++ e :: t) :=
          fun h => hmatches ((matches_line hname hfree he).1 h)
        rw [if_neg (hnot _), decide_eq_false (hnot _), ih hfuel' hlast' hnul']
        intro hnext
        apply hother
        exact forall_mem_cons.2 ⟨hnot next, hnext⟩

def fieldLength (s : Bytes) : Option Nat :=
  match s.drop contentLength.length with
  | 58 :: value =>
      let digits := (value.dropWhile fun c => c = 32 || c = 9).takeWhile isDigit
      if digits ≠ [] ∧ digits.length ≤ 63 then some (horner digits) else none
  | _ => none

def HasValue (s : Bytes) : Prop := ((lineOf s).dropWhile fun c => !endsName c).any
    (fun c => !isFiller c) = true
  deriving Decidable

theorem lineOf_append (hs : ∀ c ∈ s, endsLine c = false) : lineOf (s ++ t) = s ++ lineOf t :=
  takeWhile_append_of_pos fun c hc => by rw [hs c hc]; rfl

theorem contentLength_plain : ∀ c ∈ contentLength, endsLine c = false ∧ endsName c = false := by
  decide +kernel

theorem sessionId_plain : ∀ c ∈ sessionId, endsLine c = false := by
  decide +kernel

theorem isDigit_word (h : isDigit c = true) : endsLine c = false ∧ isFiller c = false := by
  simp only [isDigit, Bool.and_eq_true, decide_eq_true_eq, UInt8.le_iff_toNat_le,
    UInt8.reduceToNat] at h
  have hne {d : UInt8} (hd : d.toNat < 48 ∨ 57 < d.toNat) : decide (c = d) = false := by
    apply decide_eq_false
    rintro rfl
    omega
  constructor
  · simp [endsLine, hne]
  · simp [isFiller, isBlank, hne]

theorem fieldLength_inv (hs : contentLength <+: s) (h : fieldLength s = some n) : ∃ ows digits rest,
    s = contentLength ++ 58 :: (ows ++ (digits ++ rest)) ∧ (∀ c ∈ ows, c = 32 ∨ c = 9) ∧
    (∀ c ∈ digits, isDigit c = true) ∧
      digits ≠ [] ∧ digits.length ≤ 63 ∧ EndsNumber rest ∧ horner digits = n := by
  obtain ⟨u, rfl⟩ := hs
  unfold fieldLength at h
  rw [drop_left] at h
  split at h
  · rename_i value
    dsimp only at h
    split at h
    · rename_i hdigits
      refine ⟨value.takeWhile fun c => c = 32 || c = 9,
        (value.dropWhile fun c => c = 32 || c = 9).takeWhile isDigit,
        (value.dropWhile fun c => c = 32 || c = 9).dropWhile isDigit, ?_, fun c hc => ?_,
          fun c hc => mem_takeWhile_imp hc,
        hdigits.1, hdigits.2, fun c hc => head_dropWhile hc, Option.some.inj h⟩
      · rw [takeWhile_append_dropWhile, takeWhile_append_dropWhile]
      · have hblank := mem_takeWhile_imp hc
        rwa [Bool.or_eq_true, decide_eq_true_iff, decide_eq_true_iff] at hblank
    · cases h
  · cases h

theorem fieldValue_eq (hname : ∀ c ∈ name, endsLine c = false ∧ endsName c = false)
    (hc : endsLine c = false ∧ endsName c = true) (hfill : ∀ c ∈ fill, endsLine c = false ∧
    isFiller c = true)
    (hv : ∀ c ∈ v.head?, isFiller c = false) : fieldValue valuelen (name ++ c :: (fill ++ v)) =
      some (some (v.take (min (valuelen - 1) (lineOf v).length))) := by
  have hline : lineOf (name ++ c :: (fill ++ v)) = name ++ c :: (fill ++ lineOf v) := by
    rw [lineOf_append fun d hd => (hname d hd).1, ← singleton_append,
      lineOf_append (by simpa using hc.1),
      lineOf_append fun d hd => (hfill d hd).1, singleton_append]
  have hend : (name ++ c :: (fill ++ lineOf v)).takeWhile (fun c => !endsName c) = name := by
    rw [takeWhile_append_of_pos (fun d hd => by rw [(hname d hd).2]; rfl), takeWhile_cons, hc.2]
    exact append_nil name
  have hdrop : (name ++ c :: (fill ++ v)).drop (name.length + 1) = fill ++ v := by
    rw [← drop_drop, drop_left]
    rfl
  have hskip : (fill ++ v).dropWhile isFiller = v := by
    rw [dropWhile_append_of_pos fun d hd => (hfill d hd).2]
    cases v with
    | nil => rfl
    | cons d v => simp [hv d rfl]
  have hoffset : (name ++ c :: (fill ++ v)).length - v.length = name.length + 1 + fill.length := by
    simp only [length_append, length_cons]
    omega
  have hlength : (name ++ c :: (fill ++ lineOf v)).length = name.length + 1 + fill.length +
    (lineOf v).length := by
    simp only [length_append, length_cons]
    omega
  unfold fieldValue
  dsimp only
  rw [hline, hend, hdrop, hskip, hoffset, hlength, if_pos (Nat.le_add_right _ _),
    Nat.add_sub_cancel_left]

theorem fieldValue_length (hows : ∀ c ∈ ows, c = 32 ∨ c = 9) (hdigits : ∀ c ∈ digits,
    isDigit c = true) (hne : digits ≠ [])
    (hshort : digits.length ≤ 63) (ht : EndsNumber t) (hn : horner digits < 2^31) : ∃ value,
      fieldValue 64 (contentLength ++ 58 :: (ows ++ (digits ++ t))) = some (some value) ∧
      atoi value = horner digits := by
  have hfill : ∀ c ∈ ows, endsLine c = false ∧ isFiller c = true := by
    intro c hc
    rcases hows c hc with rfl | rfl <;> decide
  cases digits with
  | nil => exact absurd rfl hne
  | cons d digits =>
    have hv : ∀ c ∈ (d :: digits ++ t).head?, isFiller c = false := by
      rintro c ⟨⟩
      exact (isDigit_word (hdigits d mem_cons_self)).2
    refine ⟨_, fieldValue_eq contentLength_plain (by decide) hfill hv, ?_⟩
    have hlen : (lineOf (d :: digits ++ t)).length = (d :: digits).length + (lineOf t).length := by
      rw [lineOf_append fun c hc => (isDigit_word (hdigits c hc)).1, length_append]
    have htake : (d :: digits ++ t).take (min (64 - 1) (lineOf (d :: digits ++ t)).length) =
        d :: digits ++ t.take (min 63 (lineOf (d :: digits ++ t)).length -
          (d :: digits).length) := by
      rw [take_append, take_of_length_le (by omega)]
    rw [htake, atoi_number hdigits]
    · exact min_eq_left (by omega)
    · intro c hc
      rw [head?_take] at hc
      split at hc
      · cases hc
      · exact ht c hc

theorem isFiller_of_endsName (h : endsName c = true) : isFiller c = true := by
  simp only [endsName, Bool.or_eq_true, decide_eq_true_eq] at h
  rcases h with (rfl | rfl) | rfl <;> decide

theorem HasValue.split (h : HasValue s) : ∃ name c fill v, lineOf s = name ++ c :: (fill ++ v) ∧
    (∀ d ∈ name, endsName d = false) ∧ endsName c = true ∧ (∀ d ∈ fill, isFiller d = true) ∧
      v ≠ [] ∧ ∀ d ∈ v.head?, isFiller d = false := by
  obtain ⟨d, hd, hvalue⟩ := any_eq_true.1 h
  have hsplit := takeWhile_append_dropWhile (p := fun c => !endsName c) (l := lineOf s)
  cases hrest : (lineOf s).dropWhile fun c => !endsName c with
  | nil =>
    rw [hrest] at hd
    exact absurd hd not_mem_nil
  | cons c v =>
    have hc : endsName c = true := by
      simpa using head_dropWhile
        (show c ∈ ((lineOf s).dropWhile fun c => !endsName c).head? by rw [hrest]; rfl)
    rw [hrest] at hd hsplit
    refine ⟨(lineOf s).takeWhile fun c => !endsName c, c, v.takeWhile isFiller,
      v.dropWhile isFiller, ?_, fun d hd => ?_, hc,
      fun d hd => mem_takeWhile_imp hd, fun hnil => ?_, fun d hd => head_dropWhile hd⟩
    · rw [takeWhile_append_dropWhile]
      exact hsplit.symm
    · simpa using mem_takeWhile_imp hd
    · rcases mem_cons.1 hd with rfl | hd
      · rw [isFiller_of_endsName hc] at hvalue
        cases hvalue
      · rw [dropWhile_eq_nil_iff.1 hnil d hd] at hvalue
        cases hvalue

theorem fieldValue_isSome (hline : ∃ c ∈ s, endsLine c = true) (hvalue : HasValue s) :
    (fieldValue valuelen (s ++ post)).isSome := by
  obtain ⟨e, rest, hs, -, hfree⟩ := exists_line hline
  obtain ⟨name, c, fill, v, heq, hname, hc, hfill, hv, hhead⟩ := hvalue.split
  rw [heq] at hs hfree
  have hfree' (d : UInt8) (hd : d ∈ name ∨ d = c ∨ d ∈ fill) : endsLine d = false := by
    apply hfree
    rcases hd with hd | rfl | hd
    · exact mem_append_left _ hd
    · exact mem_append_right name mem_cons_self
    · exact mem_append_right name (mem_cons_of_mem c (mem_append_left v hd))
  have hvhead : ∀ d ∈ (v ++ (e :: rest ++ post)).head?, isFiller d = false := by
    cases v with
    | nil => exact absurd rfl hv
    | cons d v => exact hhead
  have hs : s ++ post = name ++ c :: (fill ++ (v ++ (e :: rest ++ post))) := by
    rw [hs]
    simp
  rw [hs, fieldValue_eq (fun d hd => ⟨hfree' d (.inl hd), hname d hd⟩) ⟨hfree' c (.inr (.inl rfl)),
    hc⟩ (fun d hd => ⟨hfree' d (.inr (.inr hd)), hfill d hd⟩) hvhead]
  rfl

theorem lineStarts_suffix (h : s ∈ lineStarts b header) : s <:+ header ∧ s ≠ [] := by
  induction header generalizing b with
  | nil => exact absurd h not_mem_nil
  | cons c rest ih =>
    have hrest {b : Bool} (h : s ∈ lineStarts b rest) : s <:+ c :: rest ∧ s ≠ [] :=
      ⟨(ih h).1.trans (suffix_cons c rest), (ih h).2⟩
    rw [lineStarts] at h
    split at h
    · exact hrest h
    split at h
    · exact hrest h
    split at h
    · rcases mem_cons.1 h with rfl | h
      · exact ⟨suffix_rfl, cons_ne_nil c rest⟩
      · exact hrest h
    · exact hrest h

theorem lineStarts_ends (hlast : ∀ c ∈ header.getLast?, isNewline c = true)
    (h : s ∈ lineStarts true header) : ∃ c ∈ s, endsLine c = true := by
  obtain ⟨⟨pre, rfl⟩, hne⟩ := lineStarts_suffix h
  obtain ⟨d, hd⟩ := Option.isSome_iff_exists.1 (getLast?_isSome.2 hne)
  refine ⟨d, mem_of_getLast? hd, ?_⟩
  rw [endsLine_eq, hlast d (by rw [getLast?_append, hd]; rfl)]
  rfl

theorem matches_of_length (hs : contentLength <+: s) (h : fieldLength s = some n) :
    Matches contentLength s := by
  refine ⟨hs, ?_⟩
  obtain ⟨ows, digits, rest, rfl, -⟩ := fieldLength_inv hs h
  have hcolon : ∀ c ∈ ([58] : Bytes), endsLine c = false := by simp [endsLine]
  rw [lineOf_append fun c hc => (contentLength_plain c hc).1, ← singleton_append,
    lineOf_append hcolon]
  simp [endsName]

theorem endsNumber_append (hows : ∀ c ∈ ows, c = 32 ∨ c = 9) (hdigits : ∀ c ∈ digits,
    isDigit c = true)
    (hrest : EndsNumber rest) (hend : ∃ c ∈ contentLength ++ 58 :: (ows ++ (digits ++ rest)),
    endsLine c = true) (post : Bytes) : EndsNumber (rest ++ post) := by
  cases rest with
  | cons c rest => exact hrest
  | nil =>
    obtain ⟨c, hc, hend⟩ := hend
    rw [append_nil, mem_append, mem_cons, mem_append] at hc
    rcases hc with hc | rfl | hc | hc
    · rw [(contentLength_plain c hc).1] at hend
      cases hend
    · cases hend
    · rcases hows c hc with rfl | rfl <;> cases hend
    · rw [(isDigit_word (hdigits c hc)).1] at hend
      cases hend

/-- The length of a body is read where every line that begins with the name gives it, or there is
none. -/
theorem getval_length (hlast : ∀ c ∈ header.getLast?, isNewline c = true) (hnul : 0 ∉ header)
    (hpost : 0 ∈ post)
    (hother : (∀ s ∈ lineStarts true header, ¬contentLength <+: s) →
    ¬contentLength <+: post.dropWhile isBlank)
    (hfields : ∀ s ∈ lineStarts true header, contentLength <+: s → fieldLength s = some n)
    (habsent : (∀ s ∈ lineStarts true header, ¬contentLength <+: s) → n = 0) (hn : n < 2^31) :
    ∃ value,
      swiotCommonGetval (header ++ post) header.length contentLength 64 = some value ∧
      value.elim 0 atoi = (n : Int) := by
  have hnone (h : ∀ s ∈ lineStarts true header, ¬Matches contentLength s) :
      ∀ s ∈ lineStarts true header, ¬contentLength <+: s :=
    fun s hmem hs => h s hmem (matches_of_length hs (hfields s hmem hs))
  rw [swiotCommonGetval, getvalLoop_header (Nat.lt_succ_self _) hlast hnul
    (fun c hc => (contentLength_plain c hc).1) hpost fun h => hother (hnone h)]
  cases hfind : (lineStarts true header).find? fun s => Matches contentLength s with
  | none =>
    refine ⟨none, rfl, ?_⟩
    rw [habsent (hnone fun s hmem => by simpa using find?_eq_none.1 hfind s hmem)]
    rfl
  | some s =>
    have hmem := mem_of_find?_eq_some hfind
    have hmatches : Matches contentLength s := by simpa using find?_some hfind
    obtain ⟨ows, digits, rest, rfl, hows, hdigits, hne, hshort, hrest, rfl⟩ :=
      fieldLength_inv hmatches.1 (hfields s hmem hmatches.1)
    have ht := endsNumber_append hows hdigits hrest (lineStarts_ends hlast hmem) post
    obtain ⟨value, hvalue, hatoi⟩ := fieldValue_length hows hdigits hne hshort ht hn
    refine ⟨some value, ?_, hatoi⟩
    rw [Option.elim_some, ← hvalue]
    simp

theorem getval_session (hlast : ∀ c ∈ header.getLast?, isNewline c = true) (hnul : 0 ∉ header)
    (hpost : 0 ∈ post)
    (hother : (∀ s ∈ lineStarts true header, ¬Matches sessionId s) →
    ¬sessionId <+: post.dropWhile isBlank)
    (hfields : ∀ s ∈ lineStarts true header, Matches sessionId s → HasValue s) :
    (swiotCommonGetval (header ++ post) header.length sessionId 64).isSome := by
  rw [swiotCommonGetval, getvalLoop_header (Nat.lt_succ_self _) hlast hnul sessionId_plain hpost
    hother]
  cases hfind : (lineStarts true header).find? fun s => Matches sessionId s with
  | none => rfl
  | some s =>
    have hmem := mem_of_find?_eq_some hfind
    have hmatches : Matches sessionId s := by simpa using find?_some hfind
    exact fieldValue_isSome (lineStarts_ends hlast hmem) (hfields s hmem hmatches)

end SwApi.HttpServer
