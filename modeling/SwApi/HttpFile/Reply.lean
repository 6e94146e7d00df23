import SwApi.HttpFile.Header
import SwApi.Url.Text

/-! Headers as servers write them, and what the client reads in them. -/
namespace SwApi.HttpFile
open Library List
open Url (Free)

def headerText (lines : List Bytes) : Bytes := lines.flatMap (fun l => l ++ [13, 10]) ++ [13, 10]

structure IsLine (l : Bytes) : Prop where
  ne_nil : l ≠ []
  free : Free l [0, 13, 10]

theorem headerText_cons (l : Bytes) (lines : List Bytes) :
    headerText (l :: lines) = l ++ 13 :: 10 :: headerText lines := by
  simp [headerText]

theorem IsLine.no_cr (h : IsLine l) : 13 ∉ l := h.free.not_mem (by simp)

section
variable {lines : List Bytes} (hlines : ∀ l ∈ lines, IsLine l)
include hlines

theorem headerSizeLoop_eq (hfuel : lines.length < fuel) (rest : Bytes) :
    headerSizeLoop fuel (headerText lines ++ rest) = (headerText lines).length := by
  induction lines generalizing fuel with
  | nil =>
    obtain ⟨fuel, rfl⟩ : ∃ f, fuel = f + 1 := ⟨fuel - 1, by omega⟩
    rfl
  | cons l lines ih =>
    obtain ⟨fuel, rfl⟩ : ∃ f, fuel = f + 1 := ⟨fuel - 1, by omega⟩
    have hl := hlines l mem_cons_self
    obtain ⟨k, hk⟩ : ∃ k, l.length = k + 1 :=
      Nat.exists_eq_succ_of_ne_zero (length_pos_iff.2 hl.ne_nil).ne'
    rw [length_cons] at hfuel
    have hrest := ih (forall_mem_cons.1 hlines).2 (show lines.length < fuel by omega)
    have hdrop : (l ++ 13 :: 10 :: (headerText lines ++ rest)).drop (k + 3) =
      headerText lines ++ rest := by
      rw [show k + 3 = l.length + 2 by omega, ← drop_drop, drop_left]
      rfl
    rw [headerText_cons, append_assoc, cons_append, cons_append, headerSizeLoop,
      if_neg (append_ne_nil_of_left_ne_nil hl.ne_nil _), findCrlf_line hl.no_cr, hk]
    dsimp only
    rw [hdrop, hrest]
    simp only [length_append, length_cons]
    omega

theorem headerText_length : lines.length < (headerText lines).length := by
  induction lines with
  | nil => exact Nat.zero_lt_two
  | cons l lines ih =>
    have := ih (forall_mem_cons.1 hlines).2
    rw [headerText_cons, length_append, length_cons, length_cons, length_cons]
    omega

theorem getHeaderSize_eq (rest : Bytes) :
    getHeaderSize (headerText lines ++ rest) = (headerText lines).length := by
  refine headerSizeLoop_eq hlines ?_ rest
  have := headerText_length hlines
  rw [length_append]
  omega

theorem headerText_nulFree : 0 ∉ headerText lines := by
  induction lines with
  | nil => decide
  | cons l lines ih =>
    have hl := (hlines l mem_cons_self).free.not_mem (c := 0) (by simp)
    have := ih (forall_mem_cons.1 hlines).2
    rw [headerText_cons]
    simp [hl, this]

end

theorem headerText_end (h : lines ≠ []) : ∃ front,
    headerText lines = front ++ [13, 10, 13, 10] := by
  obtain ⟨front, l, rfl⟩ := (eq_nil_or_concat lines).resolve_left h
  exact ⟨front.flatMap (fun l => l ++ [13, 10]) ++ l, by simp [headerText]⟩

theorem blankLine_last (hlines : ∀ l ∈ lines, IsLine l)
    (h : [13, 10, 13, 10] <+: (headerText lines).drop i) : i + 4 = (headerText lines).length := by
  induction lines generalizing i with
  | nil =>
    have := h.length_le
    simp only [headerText, flatMap_nil, nil_append, length_drop, length_cons,
      length_nil] at this
    omega
  | cons l lines ih =>
    have hl := hlines l mem_cons_self
    have hlines' := (forall_mem_cons.1 hlines).2
    rw [headerText_cons] at h ⊢
    rcases Nat.lt_or_ge i l.length with hin | hout
    · -- inside of the line
      obtain ⟨t, ht⟩ := h
      have hget : (l ++ 13 :: 10 :: headerText lines)[i]? = some 13 := by
        have := congrArg (fun p : Bytes => p[0]?) ht
        simpa using this.symm
      rw [getElem?_append_left hin] at hget
      exact absurd (mem_of_getElem? hget) hl.no_cr
    · obtain ⟨j, rfl⟩ := Nat.exists_eq_add_of_le hout
      rw [← drop_drop, drop_left] at h
      match j, h with
      | 0, h =>
        cases lines with
        | nil => simp [headerText]
        | cons l' lines =>
          obtain ⟨c, t, hc⟩ := exists_cons_of_ne_nil (hlines' l' mem_cons_self).ne_nil
          rw [headerText_cons, hc, drop_zero] at h
          have hcr : c = 13 := by simpa using (cons_prefix_cons.1 (cons_prefix_cons.1
            (cons_prefix_cons.1 h).2).2).1.symm
          exact absurd (hcr ▸ hc ▸ mem_cons_self) (hlines' l' mem_cons_self).no_cr
      | 1, h => exact absurd (cons_prefix_cons.1 h).1 (by decide)
      | j + 2, h =>
        have := ih hlines' (i := j) h
        simp only [length_append, length_cons]
        omega

theorem beginsWith_length (h : beginsWith name l = true) : name.length ≤ l.length := by
  have := congrArg List.length (beq_iff_eq.1 h)
  rw [length_map, length_map, length_take] at this
  omega

theorem beginsWith_line (hname : 13 ∉ name.map CString.tolower) :
    beginsWith name (l ++ 13 :: rest) = beginsWith name l := by
  rcases Nat.lt_or_ge l.length name.length with hshort | hlong
  · have hleft : beginsWith name (l ++ 13 :: rest) = false := by
      rw [beginsWith, beq_eq_false_iff_ne]
      intro heq
      refine hname (heq ▸ mem_map.2 ⟨13, ?_, by decide⟩)
      have hget : (l ++ 13 :: rest)[l.length]? = some 13 := by
        rw [getElem?_append_right le_rfl, Nat.sub_self]
        rfl
      exact mem_of_getElem? ((getElem?_take_of_lt hshort).trans hget)
    rw [hleft, Bool.eq_false_iff.2 fun h => Nat.not_le.2 hshort (beginsWith_length h)]
  · rw [beginsWith, take_append_of_le_length hlong, beginsWith]

def lineValue (name l : Bytes) (valuesize : Nat) : Bytes :=
  ((l.drop name.length).dropWhile isBlank).take (valuesize - 1)

theorem lineValue_eq (hl : IsLine l) (hbegins : beginsWith name l = true)
    (hleft : l.length < left) :
    Url.cstr ((((((l ++ 13 :: rest).drop name.length).take
      (left - name.length)).dropWhile isBlank).takeWhile
        fun c => c != 13 && c != 10).take (valuesize - 1)) = lineValue name l valuesize := by
  have hlen := beginsWith_length hbegins
  have hfree : Free (l.drop name.length) [0, 13, 10] := fun c hc => hl.free c (mem_of_mem_drop hc)
  obtain ⟨more, hmore⟩ : ∃ more, ((l ++ 13 :: rest).drop name.length).take (left - name.length) =
      l.drop name.length ++ 13 :: more := by
    rw [drop_append_of_le_length hlen, take_append, take_of_length_le (by rw [length_drop]; omega),
      length_drop]
    obtain ⟨k, hk⟩ : ∃ k, left - name.length - (l.length - name.length) = k + 1 :=
      Nat.exists_eq_succ_of_ne_zero (by omega)
    rw [hk, take_succ_cons]
    exact ⟨_, rfl⟩
  have hblank : (l.drop name.length ++ 13 :: more).dropWhile isBlank =
      (l.drop name.length).dropWhile isBlank ++ 13 :: more := by
    rw [dropWhile_append]
    split
    · rename_i hnil
      rw [isEmpty_iff.1 hnil]
      rfl
    · rfl
  have hfree' : Free ((l.drop name.length).dropWhile isBlank) [0, 13, 10] :=
    fun c hc => hfree c ((dropWhile_suffix _).subset hc)
  have hspan : ((l.drop name.length).dropWhile isBlank ++ 13 :: more).takeWhile
    (fun c => c != 13 && c != 10) = (l.drop name.length).dropWhile isBlank := by
    have hall : ∀ c ∈ (l.drop name.length).dropWhile isBlank, (c != 13 && c != 10) = true := by
      intro c hc
      have := hfree' c hc
      simp only [mem_cons, not_mem_nil, or_false, not_or] at this
      simp [this]
    rw [takeWhile_append_of_pos hall]
    simp
  rw [hmore, hblank, hspan, lineValue, Url.cstr, takeWhile_eq_self_iff]
  intro c hc
  exact bne_iff_ne.2 fun e => hfree' c (mem_of_mem_take hc) (by simp [e])

theorem fieldLoop_eq (hlines : ∀ l ∈ lines, IsLine l) (hname : 13 ∉ name.map CString.tolower)
    (hne : name ≠ []) (hfuel : lines.length < fuel) :
    fieldLoop name valuesize fuel (headerText lines ++ rest) (headerText lines).length =
      (lines.find? (beginsWith name)).map fun l => lineValue name l valuesize := by
  induction lines generalizing fuel with
  | nil =>
    obtain ⟨fuel, rfl⟩ : ∃ f, fuel = f + 1 := ⟨fuel - 1, by omega⟩
    have hnot : beginsWith name (13 :: 10 :: rest) = false := by
      rw [show (13 : UInt8) :: 10 :: rest = [] ++ 13 :: 10 :: rest from rfl, beginsWith_line hname,
        beginsWith, take_nil, beq_eq_false_iff_ne]
      exact fun h => hne (map_eq_nil_iff.1 h.symm)
    have hlast : fieldLoop name valuesize fuel rest 0 = none := by
      cases fuel with
      | zero | succ fuel => rfl
    exact (if_neg (by decide)).trans
      ((if_neg (by rw [show headerText [] ++ rest = 13 :: 10 :: rest from rfl, hnot]; decide)).trans
        hlast)
  | cons l lines ih =>
    obtain ⟨fuel, rfl⟩ : ∃ f, fuel = f + 1 := ⟨fuel - 1, by omega⟩
    have hl := hlines l mem_cons_self
    rw [length_cons] at hfuel
    have hrest := ih (forall_mem_cons.1 hlines).2 (show lines.length < fuel by omega)
    have hlen : (l ++ 13 :: 10 :: headerText lines).length =
      l.length + 2 + (headerText lines).length := by
      simp only [length_append, length_cons]
      omega
    rw [headerText_cons, hlen, append_assoc, cons_append, cons_append, fieldLoop, if_neg (by omega),
      beginsWith_line hname, find?_cons]
    cases hbegins : beginsWith name l with
    | true =>
      rw [if_pos rfl]
      dsimp only
      rw [lineValue_eq hl hbegins (by omega)]
      rfl
    | false =>
      rw [if_neg Bool.false_ne_true]
      dsimp only
      have hline :
        ((l ++ 13 :: 10 :: (headerText lines ++ rest)).take
          (l.length + 2 + (headerText lines).length)).takeWhile (· != 10) = l ++ [13] := by
        have htake : (l ++ 13 :: 10 :: (headerText lines ++ rest)).take
          (l.length + 2 + (headerText lines).length) = (l ++ [13]) ++ 10 :: headerText lines := by
          rw [show l ++ 13 :: 10 :: (headerText lines ++ rest) =
            ((l ++ [13]) ++ 10 :: headerText lines) ++ rest by simp]
          exact take_left' (by simp; omega)
        have hall : ∀ c ∈ l ++ [13], (c != 10) = true := by
          intro c hc
          rcases mem_append.1 hc with hc | hc
          · exact bne_iff_ne.2 fun e => hl.free c hc (by simp [e])
          · rw [mem_singleton.1 hc]
            rfl
        rw [htake, takeWhile_append_of_pos hall]
        simp
      have hdrop : (l ++ 13 :: 10 :: (headerText lines ++ rest)).drop ((l ++ [13]).length + 1) =
        headerText lines ++ rest := by
        rw [length_append, length_singleton, Nat.add_assoc, ← drop_drop, drop_left]
        rfl
      have hleft : l.length + 2 + (headerText lines).length - ((l ++ [13]).length + 1) =
        (headerText lines).length := by
        rw [length_append, length_singleton]
        omega
      rw [hline, hdrop, hleft, hrest]

structure Reply where
  version : Bytes
  status : Nat
  reason : Bytes
  fields : List (Bytes × Bytes)
  version_ok : ∀ c ∈ version, (isDigit c || c == 46) = true
  status_ok : 100 ≤ status ∧ status < 1000
  reason_free : Free reason [0, 13, 10]
  names_free : ∀ f ∈ fields, Free f.1 [0, 13, 10, 58]
  values_free : ∀ f ∈ fields, Free f.2 [0, 13, 10]

def Reply.statusLine (r : Reply) : Bytes :=
  [72, 84, 84, 80, 47] ++ (r.version ++ 32 :: (decimal r.status ++ 32 :: r.reason))

/-- The value begins with its blanks. -/
def fieldLine (f : Bytes × Bytes) : Bytes := f.1 ++ 58 :: f.2

def Reply.lines (r : Reply) : List Bytes := r.statusLine :: r.fields.map fieldLine

def Reply.text (r : Reply) : Bytes := headerText r.lines

def SameName (a b : Bytes) : Prop := a.map CString.tolower = b.map CString.tolower

section
variable (r : Reply)

theorem decimal_free : Free (decimal n) [0, 13, 10, 32, 45, 46, 47, 58, 9] :=
  Free.of_all (fun _ hc => isDigit_of_mem_decimal hc) (by simp [isDigit])

theorem Reply.lines_ok : ∀ l ∈ r.lines, IsLine l := by
  intro l hl
  rcases mem_cons.1 hl with rfl | hl
  · refine ⟨cons_ne_nil _ _, Free.append (by simp [Free])
      (Free.append ?_ (Free.cons (by decide) ?_))⟩
    · exact Free.of_all r.version_ok (by simp [isDigit])
    · exact (decimal_free.mono (by simp)).append (Free.cons (by decide) r.reason_free)
  · obtain ⟨f, hf, rfl⟩ := mem_map.1 hl
    refine ⟨append_ne_nil_of_right_ne_nil _ (cons_ne_nil _ _), ?_⟩
    exact ((r.names_free f hf).mono (by simp)).append
      (Free.cons (by decide) (r.values_free f hf))

theorem getRetCode_eq (rest : Bytes) : getRetCode (r.text ++ rest) = r.status := by
  have hstatus := r.status_ok
  obtain ⟨more, htext⟩ : ∃ more, r.text ++ rest =
      [72, 84, 84, 80, 47] ++ (r.version ++ 32 :: (decimal r.status ++ 32 :: more)) := by
    rw [Reply.text, Reply.lines, headerText_cons, Reply.statusLine]
    exact ⟨r.reason ++ 13 :: 10 :: (headerText (r.fields.map fieldLine) ++ rest), by simp⟩
  have hversion : (r.version ++ 32 :: (decimal r.status ++ 32 :: more)).dropWhile
    (fun c => isDigit c || c == 46) = 32 :: (decimal r.status ++ 32 :: more) := by
    rw [dropWhile_append_of_pos r.version_ok]
    rfl
  obtain ⟨d, ds, hd⟩ := exists_cons_of_ne_nil (decimal_ne_nil r.status)
  have hblank : (32 :: (decimal r.status ++ 32 :: more)).dropWhile (· == 32) =
    decimal r.status ++ 32 :: more := by
    have hne : d ≠ 32 := fun e => decimal_free d (by rw [hd]; exact mem_cons_self) (by simp [e])
    rw [hd]
    simp [hne]
  have hdigits : (decimal r.status ++ 32 :: more).takeWhile isDigit = decimal r.status :=
    takeWhile_digits (fun c hc => isDigit_of_mem_decimal hc) (by simp [EndsNumber, isDigit])
  have hshort : (decimal r.status).length ≤ 3 := decimal_length (by omega)
  have hatoi := atoi_decimal (show 0 < r.status by omega) (by omega)
    (show EndsNumber [] by simp [EndsNumber])
  rw [append_nil] at hatoi
  have hhttp (l : Bytes) : beginsWith [104, 116, 116, 112, 47] ([72, 84, 84, 80, 47] ++ l) = true :=
    rfl
  have hdrop (l : Bytes) : ([72, 84, 84, 80, 47] ++ l).drop 5 = l := rfl
  rw [htext]
  unfold getRetCode
  dsimp only
  rw [if_pos (hhttp _), hdrop, hversion, hblank, hdigits, take_of_length_le (by omega), hatoi]

theorem tolower_colon (h : CString.tolower c = 58) : c = 58 := by
  unfold CString.tolower at h
  split at h
  · rename_i hc
    have hle : 65 ≤ c.toNat ∧ c.toNat ≤ 90 := hc
    have := congrArg UInt8.toNat h
    rw [UInt8.toNat_add] at this
    simp only [UInt8.reduceToNat] at this
    omega
  · exact h

theorem sameName_of_beginsWith (hf : 58 ∉ f.1) (hname : 58 ∉ name.map CString.tolower)
    (h : beginsWith (name ++ [58]) (fieldLine f) = true) : SameName f.1 name := by
  have heq := beq_iff_eq.1 h
  rw [fieldLine, map_append, map_take, map_append] at heq
  have hf' : 58 ∉ f.1.map CString.tolower := by
    intro hmem
    obtain ⟨c, hc, hcolon⟩ := mem_map.1 hmem
    exact hf (tolower_colon hcolon ▸ hc)
  -- both sides up to their first colon
  have hpre : name.map CString.tolower ++ [58] <+: f.1.map CString.tolower ++ 58 :: f.2.map
    CString.tolower :=
    ⟨_, by rw [← show [58].map CString.tolower = [58] from rfl, ← heq]; exact take_append_drop _ _⟩
  obtain ⟨t, ht⟩ := hpre
  rw [append_assoc] at ht
  have hfound := congrArg (Url.strchr 58) ht
  rw [Url.strchr_append hname, Url.strchr_append hf', singleton_append, Url.strchr_cons,
    Url.strchr_cons] at hfound
  rw [singleton_append, Option.some.inj hfound] at ht
  exact (append_cancel_right ht).symm

theorem getFieldValue_reply (name : Bytes) (hcr : 13 ∉ (name ++ [58]).map CString.tolower)
    (hcolon : 58 ∉ name.map CString.tolower)
    (hhttp : beginsWith (name ++ [58]) r.statusLine = false) (valuesize : Nat) (rest : Bytes) :
    getFieldValue (r.text ++ rest) r.text.length (name ++ [58]) valuesize = none ∨
    ∃ f ∈ r.fields, SameName f.1 name ∧ getFieldValue (r.text ++ rest) r.text.length
        (name ++ [58]) valuesize = some ((f.2.dropWhile isBlank).take (valuesize - 1)) := by
  have hne : name ++ [58] ≠ [] := append_ne_nil_of_right_ne_nil _ (cons_ne_nil _ _)
  rw [Reply.text, getFieldValue, fieldLoop_eq r.lines_ok hcr hne (headerText_length r.lines_ok)]
  cases hfind : r.lines.find? (beginsWith (name ++ [58])) with
  | none => exact .inl rfl
  | some l =>
    right
    have hbegins := find?_some hfind
    rcases mem_cons.1 (mem_of_find?_eq_some hfind) with rfl | hl
    · rw [hhttp] at hbegins
      cases hbegins
    · obtain ⟨f, hf, rfl⟩ := mem_map.1 hl
      have hsame := sameName_of_beginsWith ((r.names_free f hf).not_mem (by simp)) hcolon hbegins
      refine ⟨f, hf, hsame, ?_⟩
      have hlen : (name ++ [58]).length = f.1.length + 1 := by
        have := congrArg List.length hsame
        rw [length_map, length_map] at this
        simp [this]
      have hdrop : (fieldLine f).drop (name ++ [58]).length = f.2 := by
        rw [fieldLine, hlen, ← drop_drop, drop_left]
        rfl
      rw [Option.map_some, lineValue, hdrop]

end

/-- `bytes a-b/total`. -/
def rangeText (a b : Nat) (total : Bytes) : Bytes :=
  [98, 121, 116, 101, 115, 32] ++ (decimal a ++ 45 :: (decimal b ++ 47 :: total))

structure Truthful (r : Reply) (c : Bytes) (pos : Nat) : Prop where
  length : ∀ f ∈ r.fields, SameName f.1 contentLength.dropLast →
    f.2.dropWhile isBlank = decimal (c.length - pos)
  range : ∀ f ∈ r.fields, SameName f.1 contentRange.dropLast → pos < c.length ∧
    ∃ total, (total = decimal c.length ∨ total = [42]) ∧
      f.2.dropWhile isBlank = rangeText pos (c.length - 1) total
  encoding : ∀ f ∈ r.fields, ¬SameName f.1 transferEncoding.dropLast

section
variable {c : Bytes}

theorem isDigit_not_blank {c : UInt8} (h : isDigit c = true) : isBlank c = false := by
  rw [Bool.eq_false_iff]
  intro hblank
  obtain rfl | rfl : c = 32 ∨ c = 9 := by simpa [isBlank] using hblank
  all_goals cases h

theorem digits_blank (hs : ∀ c ∈ s, isDigit c = true) (hne : s ≠ []) (rest : Bytes) :
    (s ++ rest).dropWhile isBlank = s ++ rest := by
  obtain ⟨c, t, rfl⟩ := exists_cons_of_ne_nil hne
  rw [cons_append, dropWhile_cons, isDigit_not_blank (hs c mem_cons_self)]
  rfl

theorem strInt64_digits (hs : ∀ c ∈ s, isDigit c = true) (hne : s ≠ []) (hrest : EndsNumber rest)
    (hvalue : horner s < 2 ^ 63) : strInt64 (s ++ rest) = .ok (horner s : Int) := by
  rw [strInt64, digits_blank hs hne, takeWhile_digits hs hrest, int64]
  exact if_pos ⟨by omega, by exact_mod_cast hvalue⟩

theorem strInt64_none (h : (s.dropWhile isBlank).takeWhile isDigit = []) : strInt64 s = .ok 0 := by
  rw [strInt64, h, int64]
  exact if_pos ⟨by decide, by decide⟩

theorem strInt64_decimal (hn : n < 2 ^ 63) (hrest : EndsNumber rest) :
    strInt64 (decimal n ++ rest) = .ok (n : Int) := by
  have := strInt64_digits (fun c hc => isDigit_of_mem_decimal hc) (decimal_ne_nil n) hrest
    (by rw [horner_decimal]; exact hn)
  rwa [horner_decimal] at this

theorem decimal_short (hn : n < 2 ^ 63) : (decimal n).length ≤ 19 :=
  decimal_length (hn.trans (by decide))

theorem checkContentSize_reply (h : Truthful r c pos) (hc : c.length < 2 ^ 63) (rest : Bytes) :
    checkContentSize (r.text ++ rest) r.text.length = .ok none ∨
      checkContentSize (r.text ++ rest) r.text.length = .ok
      (some ((c.length - pos : Nat) : Int)) := by
  unfold checkContentSize
  obtain hnone | ⟨f, hf, hsame, hvalue⟩ := getFieldValue_reply r contentLength.dropLast (by decide)
    (by decide) rfl 32 rest
  · left
    rw [show contentLength = contentLength.dropLast ++ [58] from rfl, hnone]
  · right
    have hlen := decimal_short (n := c.length - pos) (by omega)
    have hread := strInt64_decimal (n := c.length - pos) (by omega)
      (show EndsNumber [] by simp [EndsNumber])
    rw [append_nil] at hread
    rw [show contentLength = contentLength.dropLast ++ [58] from rfl, hvalue, h.length f hf hsame,
      take_of_length_le (by omega)]
    dsimp only
    rw [hread]
    rfl

theorem parseRange_eq (ha : a < 2 ^ 63) (hb : b < 2 ^ 63) (htotal : strInt64 total = .ok n) :
    parseRange (rangeText a b total) = .ok ((a : Int), (b : Int), n) := by
  obtain ⟨d, ds, hd⟩ := exists_cons_of_ne_nil (decimal_ne_nil a)
  have hdigit := isDigit_of_mem_decimal (n := a) (c := d) (by rw [hd]; exact mem_cons_self)
  have hfirst : (rangeText a b total).dropWhile (fun c => !isDigit c) =
      decimal a ++ 45 :: (decimal b ++ 47 :: total) := by
    rw [rangeText, dropWhile_append_of_pos (by simp [isDigit]), hd, cons_append, dropWhile_cons,
      hdigit]
    rfl
  have hdash : (decimal a ++ 45 :: (decimal b ++ 47 :: total)).dropWhile (· != 45) =
      45 :: (decimal b ++ 47 :: total) := by
    rw [dropWhile_append_of_pos fun c hc => bne_iff_ne.2 fun e => decimal_free c hc (by simp [e])]
    rfl
  have hslash : (decimal b ++ 47 :: total).dropWhile (· != 47) = 47 :: total := by
    rw [dropWhile_append_of_pos fun c hc => bne_iff_ne.2 fun e => decimal_free c hc (by simp [e])]
    rfl
  have hstart :=
    strInt64_decimal ha (show EndsNumber (45 :: (decimal b ++ 47 :: total)) by simp [EndsNumber,
      isDigit])
  have hend := strInt64_decimal hb (show EndsNumber (47 :: total) by simp [EndsNumber, isDigit])
  unfold parseRange
  dsimp only
  rw [hfirst, hstart, ok_bind, hdash, tail_cons, hend, ok_bind, hslash, tail_cons, htotal, ok_bind]

theorem strInt64_total (htotal : total = decimal c.length ∨ total = [42]) (hc : c.length < 2 ^ 63) :
    ∃ n, strInt64 (total.take m) = .ok n := by
  cases m with
  | zero => exact ⟨0, strInt64_none rfl⟩
  | succ m =>
    rcases htotal with rfl | rfl
    · have hne : (decimal c.length).take (m + 1) ≠ [] := by
        intro h
        rcases take_eq_nil_iff.1 h with h | h
        · cases h
        · exact decimal_ne_nil _ h
      have hread := strInt64_digits (fun d hd => isDigit_of_mem_decimal (mem_of_mem_take hd)) hne
        (show EndsNumber [] by simp [EndsNumber])
          ((horner_take_decimalLoop _ _ _ le_rfl).1.trans_lt hc)
      rw [append_nil] at hread
      exact ⟨_, hread⟩
    · exact ⟨0, strInt64_none rfl⟩

theorem getContentRange_reply (h : Truthful r c pos) (hc : c.length < 2 ^ 63) (rest : Bytes) :
    getContentRange (r.text ++ rest) r.text.length = .ok none ∨
      pos < c.length ∧ ∃ n, getContentRange (r.text ++ rest) r.text.length =
        .ok (some ((pos : Int), ((c.length - 1 : Nat) : Int), n)) := by
  unfold getContentRange
  obtain hnone | ⟨f, hf, hsame, hvalue⟩ := getFieldValue_reply r contentRange.dropLast (by decide)
    (by decide) rfl 64 rest
  · left
    rw [show contentRange = contentRange.dropLast ++ [58] from rfl, hnone]
  · right
    obtain ⟨hpos, total, htotal, hrange⟩ := h.range f hf hsame
    refine ⟨hpos, ?_⟩
    have hstart := decimal_short (n := pos) (by omega)
    have hend := decimal_short (n := c.length - 1) (by omega)
    obtain ⟨m, hcut⟩ : ∃ m, ((f.2.dropWhile isBlank).take 63) =
        rangeText pos (c.length - 1) (total.take m) := by
      generalize hfront : rangeText pos (c.length - 1) [] = front
      have hlen : front.length ≤ 63 := by
        rw [← hfront, rangeText]
        simp only [length_append, length_cons, length_nil]
        omega
      have hjoin (t : Bytes) : rangeText pos (c.length - 1) t = front ++ t := by
        rw [← hfront]
        simp [rangeText]
      refine ⟨63 - front.length, ?_⟩
      rw [hrange, hjoin, hjoin, take_append, take_of_length_le hlen]
    obtain ⟨n, hn⟩ : ∃ n, strInt64 (total.take m) = .ok n := strInt64_total htotal hc
    refine ⟨n, ?_⟩
    rw [show contentRange = contentRange.dropLast ++ [58] from rfl, hvalue, hcut]
    dsimp only
    rw [parseRange_eq (by omega) (by omega) hn]
    rfl

end

end SwApi.HttpFile
