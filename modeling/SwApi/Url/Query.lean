import SwApi.Format.Output
import SwApi.Library.Lists
import SwApi.Url.Text

/-! Parameters of a url that the printer has escaped: `sw_url_get_param_value` reads every value
back. -/
namespace SwApi.Url
open Library List
open Format (urlEscape swUrlVsnprintf Prints Arg pageSize)

theorem urlEscape_emits : urlEscape.Emits urlCode := by
  intro c b hroom
  have hroom : b.str + 3 < b.mem.length := hroom
  have h0 : b.store 37 = .ok (b.put 37) := Format.store_eq_put (by omega)
  have h1 (d : UInt8) : (b.put 37).store d = .ok ((b.put 37).put d) :=
    Format.store_eq_put (by rw [Format.put_str, Format.put_length]; omega)
  have h2 (d d' : UInt8) : ((b.put 37).put d).store d' = .ok (((b.put 37).put d).put d') :=
    Format.store_eq_put (by simp only [Format.put_str, Format.put_length]; omega)
  simp only [urlEscape, h0, h1, h2, ok_bind]
  rw [if_neg (by omega)]
  rfl

def urlEncode (v : Bytes) : Bytes := urlEscape.encode urlCode v

theorem urlEncode_cons :
    urlEncode (c :: v) = (if urlEscape.special c then urlCode c else [c]) ++ urlEncode v := rfl

theorem hexDigit_facts : ∀ n < 16, isHex (Format.digit true n) = true ∧
    char2Hex (Format.digit true n) = n ∧ Format.digit true n ∉ ([0, 63, 38] : Bytes) := by
  decide

theorem not_special_plain (h : urlEscape.special c = false) : c ∉ ([37, 63, 38] : Bytes) := by
  intro hc
  simp only [mem_cons, not_mem_nil, or_false] at hc
  rcases hc with rfl | rfl | rfl
  all_goals cases h

theorem urlEncode_free (hv : 0 ∉ v) : Free (urlEncode v) [0, 63, 38] := by
  induction v with
  | nil => simp [urlEncode, Format.Escape.encode, Free]
  | cons c v ih =>
    have hrest := ih fun h => hv (mem_cons_of_mem _ h)
    rw [urlEncode_cons]
    refine Free.append ?_ hrest
    cases hspecial : urlEscape.special c with
    | true =>
      have hhigh := hexDigit_facts (c.toNat / 16) (by have := c.toNat_lt; omega)
      have hlow := hexDigit_facts (c.toNat % 16) (by omega)
      exact Free.cons (by decide) (Free.cons hhigh.2.2 (Free.cons hlow.2.2 (by simp [Free])))
    | false =>
      have hc : c ≠ 0 := fun e => hv (e ▸ mem_cons_self)
      have hplain := not_special_plain hspecial
      refine Free.cons ?_ (by simp [Free])
      simp only [mem_cons, not_mem_nil, or_false, not_or] at hplain ⊢
      exact ⟨hc, hplain.2⟩

/-- What `url_copy` makes of a text when it has the room. -/
def decodeLoop : Nat → Bytes → Bytes
  | 0, _ => []
  | _+1, [] => []
  | n+1, c :: p =>
      if c = 37 ∧ isHex (peek p) = true ∧ isHex (peek p.tail) = true then
        .ofNat (char2Hex (peek p) * 16 + char2Hex (peek p.tail)) :: decodeLoop n (p.drop 2)
      else if c = 37 ∧ peek p = 37 then c :: decodeLoop n (p.drop 1)
      else c :: decodeLoop n p

def urlDecode (text : Bytes) : Bytes := decodeLoop text.length text

/-- An ampersand behind a text does not change what its own bytes are taken for. -/
theorem peek_behind (hrest : ∀ c ∈ rest.head?, c = 38) (p : Bytes) :
    (isHex (peek (p ++ rest)) = true ∧ isHex (peek (p ++ rest).tail) = true ↔
      isHex (peek p) = true ∧ isHex (peek p.tail) = true) ∧
      (peek (p ++ rest) = 37 ↔ peek p = 37) := by
  have hpeek : isHex (peek rest) = false ∧ peek rest ≠ 37 := by
    cases rest with
    | nil => decide
    | cons c rest =>
      rw [peek_cons, hrest c rfl]
      decide
  have hnil : isHex (peek []) = false ∧ peek [] ≠ 37 := by decide
  rcases p with _ | ⟨a, _ | ⟨b, q⟩⟩ <;> simp [hpeek, hnil]

theorem urlCopyLoop_end : urlCopyLoop size fuel rest 0 buf = buf := by
  cases fuel <;> cases rest <;> simp [urlCopyLoop]

theorem urlCopyLoop_eq {size : Nat} (hrest : ∀ c ∈ rest.head?, c = 38) (hfuel : t.length ≤ fuel)
    (hn : t.length ≤ n) (hbuf : buf.length ≤ size) :
    urlCopyLoop size fuel (t ++ rest) t.length buf = (buf ++ decodeLoop n t).take size := by
  induction n generalizing fuel t buf with
  | zero =>
    obtain rfl := eq_nil_of_length_eq_zero (Nat.le_zero.1 hn)
    simp [decodeLoop, urlCopyLoop_end, take_of_length_le hbuf]
  | succ n ih =>
    cases t with
    | nil => simp [decodeLoop, urlCopyLoop_end, take_of_length_le hbuf]
    | cons c p =>
      rw [length_cons] at hfuel hn
      obtain ⟨fuel, rfl⟩ : ∃ f, fuel = f + 1 := ⟨fuel - 1, by omega⟩
      obtain ⟨hhex, hpercent⟩ := peek_behind hrest p
      rw [cons_append, urlCopyLoop, decodeLoop, length_cons]
      by_cases hfull : size ≤ buf.length
      · rw [if_pos (.inr (Int.ofNat_le.2 hfull)), take_left' (by omega)]
      have hnext (d : UInt8) (q : Bytes) (hq : q.length ≤ p.length) :
          urlCopyLoop size fuel (q ++ rest) q.length (buf ++ [d]) =
            (buf ++ d :: decodeLoop n q).take size := by
        rw [ih (by omega) (by omega) (by simp; omega), append_assoc, singleton_append]
      rw [if_neg (by omega)]
      simp only [hhex, hpercent]
      -- an escape, a doubled per cent sign, and a byte that stands for itself
      split
      · rename_i hcode
        rcases p with _ | ⟨a, _ | ⟨b, q⟩⟩
        · cases hcode.2.1
        · cases hcode.2.2
        · exact hnext _ q (by simp; omega)
      · split
        · rename_i hcode
          cases p with
          | nil => cases hcode.2
          | cons a q => exact hnext c q (by simp)
        · exact hnext c p le_rfl

/-- The bytes before an ampersand or the end are decoded and cut to the room. -/
theorem urlCopy_eq (hrest : ∀ c ∈ rest.head?, c = 38) (hsize : 1 ≤ size) :
    urlCopy (t ++ rest) t.length size = .ok ((urlDecode t).take (size - 1).toNat) := by
  obtain ⟨n, rfl⟩ := Int.eq_ofNat_of_zero_le (show 0 ≤ size by omega)
  have hcopy : urlCopyLoop n (t ++ rest).length (t ++ rest) t.length [] = (urlDecode t).take n :=
    urlCopyLoop_eq hrest (by simp) le_rfl (Nat.zero_le n)
  rw [urlCopy, hcopy, if_neg (by omega), take_take, Nat.min_eq_left (by omega)]

/-- Escapes are taken back, whichever bytes are escaped, as long as the per cent sign is. -/
theorem decodeLoop_escaped {special : UInt8 → Bool} (h : special 37 = true)
    (hn : (v.flatMap fun c => if special c then urlCode c else [c]).length ≤ n) :
    decodeLoop n (v.flatMap fun c => if special c then urlCode c else [c]) = v := by
  induction v generalizing n with
  | nil => cases n <;> rfl
  | cons c v ih =>
    rw [flatMap_cons, length_append] at hn
    rw [flatMap_cons]
    split at hn
    · rename_i hspecial
      have hlen : (urlCode c).length = 3 := rfl
      obtain ⟨n, rfl⟩ : ∃ m, n = m + 1 := ⟨n - 1, by omega⟩
      obtain ⟨hhigh, hhighValue, -⟩ := hexDigit_facts (c.toNat / 16) (by have := c.toNat_lt; omega)
      obtain ⟨hlow, hlowValue, -⟩ := hexDigit_facts (c.toNat % 16) (by omega)
      rw [if_pos hspecial, urlCode, cons_append, decodeLoop, if_pos ⟨rfl, hhigh, hlow⟩]
      simp only [cons_append, nil_append, peek_cons, tail_cons, hhighValue, hlowValue,
        Nat.div_add_mod', UInt8.ofNat_toNat]
      rw [drop_succ_cons, drop_succ_cons, drop_zero, ih (by omega)]
    · rename_i hspecial
      rw [length_singleton] at hn
      obtain ⟨n, rfl⟩ : ∃ m, n = m + 1 := ⟨n - 1, by omega⟩
      have hc : c ≠ 37 := fun e => hspecial (e ▸ h)
      rw [if_neg hspecial, singleton_append, decodeLoop, if_neg fun h => hc h.1,
        if_neg fun h => hc h.1, ih (by omega)]

theorem urlCode_printable (c : UInt8) : ∀ d ∈ urlCode c, 0x21 ≤ d ∧ d ≤ 0x7E := by
  have hdigit : ∀ n < 16, 0x21 ≤ Format.digit true n ∧ Format.digit true n ≤ 0x7E := by decide
  have := c.toNat_lt
  simp only [urlCode, forall_mem_cons, not_mem_nil, false_imp_iff, implies_true, and_true]
  exact ⟨by decide, hdigit _ (by omega), hdigit _ (by omega)⟩

/-- `url_copy` gives back what `sw_url_encode` was given, from text of printable bytes. -/
theorem swUrlEncode_lossless (s : CString) {size : Int} (hsize : s.bytes.length < size) :
    urlCopy (swUrlEncode s.bytes) (swUrlEncode s.bytes).length size = .ok s.bytes ∧
      ∀ c ∈ swUrlEncode s.bytes, 0x21 ≤ c ∧ c ≤ 0x7E := by
  constructor
  · have hcopy := urlCopy_eq (t := swUrlEncode s.bytes) (show ∀ c ∈ ([] : Bytes).head?,
      c = 38 by simp) (show 1 ≤ size by omega)
    rw [append_nil] at hcopy
    rw [hcopy, urlDecode, swUrlEncode, decodeLoop_escaped rfl le_rfl, take_of_length_le (by omega)]
  · intro d hd
    obtain ⟨c, -, hd⟩ := mem_flatMap.1 hd
    split at hd
    · exact urlCode_printable c d hd
    · rename_i hplain
      obtain rfl := mem_singleton.1 hd
      simp only [urlEncodes, Bool.not_eq_true, Bool.not_eq_false', Bool.and_eq_true,
        decide_eq_true_eq] at hplain
      exact hplain.1.1.1.1.1.1.1.1

/-- The text `%41` and a byte above 127. -/
theorem swUrlEncode_lossless_percent :
    urlCopy (swUrlEncode [37, 52, 49, 200]) (swUrlEncode [37, 52, 49, 200]).length 5 = .ok
      [37, 52, 49, 200] ∧ ∀ c ∈ swUrlEncode [37, 52, 49, 200], 0x21 ≤ c ∧ c ≤ 0x7E :=
  swUrlEncode_lossless ⟨[37, 52, 49, 200], by decide⟩ (by decide)

def behindDelimiters : Bytes → List Bytes
  | [] => []
  | c :: p => if c = 63 ∨ c = 38 then p :: behindDelimiters p else behindDelimiters p

/-- The segments of a url, each with what follows it: they begin at its start and behind every
`?` and `&`. -/
def segments (url : Bytes) : List Bytes := url :: behindDelimiters url

def begins (name s : Bytes) : Bool := (name ++ [61]).isPrefixOf s

def StartsSegment (url : Bytes) (i : Nat) : Prop :=
  i = 0 ∨ url[i - 1]? = some 63 ∨ url[i - 1]? = some 38

instance (url : Bytes) (i : Nat) : Decidable (StartsSegment url i) :=
  inferInstanceAs (Decidable (_ ∨ _))

def segmentsFrom (url : Bytes) (i : Nat) : List Bytes :=
  (if StartsSegment url i then [url.drop i] else []) ++ behindDelimiters (url.drop i)

theorem segmentsFrom_succ (url : Bytes) (i : Nat) : behindDelimiters (url.drop i) = segmentsFrom url
    (i + 1) := by
  unfold segmentsFrom StartsSegment
  by_cases hi : i < url.length
  · rw [drop_eq_getElem_cons hi, behindDelimiters]
    simp [hi]
    split <;> rfl
  · simp [drop_eq_nil_of_le (show url.length ≤ i by omega),
      drop_eq_nil_of_le (show url.length ≤ i + 1 by omega),
      show url.length ≤ i by omega, behindDelimiters]

theorem segmentsFrom_skip (hskip : ∀ k, i ≤ k → k < n →
    ¬(StartsSegment url k ∧ begins name (url.drop k) = true)) (hle : i ≤ n) :
    (segmentsFrom url i).find? (begins name) = (segmentsFrom url n).find? (begins name) := by
  induction n, hle using Nat.le_induction with
  | base => rfl
  | succ n hle ih =>
    have hn := hskip n hle (Nat.lt_succ_self n)
    rw [ih fun k hik hkn => hskip k hik (Nat.lt_succ_of_lt hkn), ← segmentsFrom_succ, segmentsFrom]
    split
    · rename_i hstarts
      rw [singleton_append, find?_cons_of_neg fun h => hn ⟨hstarts, h⟩]
    · rfl

theorem segmentsFrom_none (hnone : ∀ k, i ≤ k →
    ¬(StartsSegment url k ∧ begins name (url.drop k) = true)) :
    (segmentsFrom url i).find? (begins name) = none := by
  rw [segmentsFrom_skip (fun k hik _ => hnone k hik) (Nat.le_add_right i url.length), segmentsFrom,
    drop_eq_nil_of_le (Nat.le_add_left _ _)]
  split <;> simp [behindDelimiters, begins]

/-- Nothing before the next place of the name is accepted. -/
theorem segmentsFrom_strstr (hij : i ≤ j)
    (hbefore : ∀ k, i ≤ k → StartsSegment url k → begins name (url.drop k) = true → j ≤ k) :
    (segmentsFrom url i).find? (begins name) =
      (strstr name (url.drop j)).bind fun d => (segmentsFrom url (j + d)).find? (begins name) := by
  have hplace (k : Nat) (hik : i ≤ k) (h : StartsSegment url k ∧ begins name (url.drop k) = true) :
      ∃ d, strstr name (url.drop j) = some d ∧ j + d ≤ k := by
    have hjk := hbefore k hik h.1 h.2
    have hname : name <+: (url.drop j).drop (k - j) := by
      rw [drop_drop, Nat.add_sub_cancel' hjk]
      exact (prefix_append _ _).trans ( isPrefixOf_iff_prefix.1 h.2)
    obtain ⟨d, hd, hfound, -⟩ := strstr_found hname
    exact ⟨d, hfound, by omega⟩
  cases hfound : strstr name (url.drop j) with
  | none =>
    apply segmentsFrom_none
    intro k hik h
    obtain ⟨d, hd, -⟩ := hplace k hik h
    rw [hfound] at hd
    cases hd
  | some d =>
    refine segmentsFrom_skip (fun k hik hkn h => ?_) (by omega)
    obtain ⟨d', hd', hle⟩ := hplace k hik h
    rw [hfound] at hd'
    cases hd'
    omega

theorem delimited_iff (hi : name <+: url.drop i) : StartsSegment url i ∧
    url[i + name.length]? = some 61 ↔ StartsSegment url i ∧ begins name (url.drop i) = true := by
  obtain ⟨t, ht⟩ := hi
  have hget : url[i + name.length]? = t.head? := by
    rw [← getElem?_drop, ← ht, getElem?_append_right le_rfl, Nat.sub_self, head?_eq_getElem?]
  rw [hget, begins, isPrefixOf_iff_prefix, ← ht, prefix_append_right_inj]
  cases t <;> simp [eq_comm]

/-- No segment starts inside of a place of the name. -/
theorem StartsSegment.behind (h : StartsSegment url k) (hname : Free name [63, 38])
    (hi : name <+: url.drop i) (hk : i < k) : i + name.length ≤ k := by
  by_contra hle
  obtain ⟨t, ht⟩ := hi
  have hget : url[k - 1]? = name[k - 1 - i]? := by
    rw [← getElem?_append_left (show k - 1 - i < name.length by omega), ht, getElem?_drop]
    congr 1
    omega
  rw [StartsSegment, hget] at h
  rcases h with h | h | h
  · omega
  · exact hname 63 (mem_of_getElem? h) (by simp)
  · exact hname 38 (mem_of_getElem? h) (by simp)

theorem paramLoop_eq (hne : name ≠ []) (hname : Free name [63, 38]) (hi : name <+: url.drop i)
    (hfuel : url.length < fuel + i) : ∃ r, paramLoop url name fuel i = .ok r ∧
      r.map (url.drop ·) = ((segmentsFrom url i).find? (begins name)).map
      (·.drop (name.length + 1)) := by
  have hpos := length_pos_of_ne_nil hne
  induction fuel generalizing i with
  | zero =>
    have hlen := hi.length_le
    rw [length_drop] at hlen
    omega
  | succ fuel ih =>
    by_cases htest : StartsSegment url i ∧ url[i + name.length]? = some 61
    · refine ⟨_, if_pos htest, ?_⟩
      obtain ⟨hstarts, hbegins⟩ := (delimited_iff hi).1 htest
      simp [segmentsFrom, hstarts, hbegins, Nat.add_assoc]
    · rw [segmentsFrom_strstr (Nat.le_add_right i name.length)]
      · unfold StartsSegment at htest
        rw [paramLoop, if_neg htest]
        cases hfound : strstr name (url.drop (i + name.length)) with
        | none => exact ⟨none, rfl, rfl⟩
        | some d =>
          have hplace := strstr_place hfound
          rw [drop_drop] at hplace
          exact ih hplace (by omega)
      · intro k hik hstarts hbegins
        have hne : i ≠ k := fun e => htest ((delimited_iff hi).2 (e ▸ ⟨hstarts, hbegins⟩))
        exact hstarts.behind hname hi (by omega)

theorem urlCopy_value (hsize : 1 ≤ size) : urlCopy p (p.takeWhile (· != 38)).length size =
    .ok ((urlDecode (p.takeWhile (· != 38))).take (size - 1).toNat) := by
  have hrest : ∀ c ∈ (p.dropWhile (· != 38)).head?, c = 38 := by
    intro c hc
    simpa using head_dropWhile hc
  have hcopy := urlCopy_eq (t := p.takeWhile (· != 38)) hrest hsize
  rwa [takeWhile_append_dropWhile] at hcopy

theorem getParamValue_eq (hne : name ≠ []) (hname : Free name [63, 38]) (hsize : 1 ≤ size) :
    swUrlGetParamValue url name size = .ok (((segments url).find? (begins name)).map fun s =>
      (urlDecode ((s.drop (name.length + 1)).takeWhile (· != 38))).take (size - 1).toNat) := by
  have hsegments : segments url = segmentsFrom url 0 := rfl
  rw [swUrlGetParamValue, hsegments, segmentsFrom_strstr le_rfl fun _ h _ _ => h, drop_zero]
  cases hfound : strstr name url with
  | none => rfl
  | some i =>
    obtain ⟨r, hr, hfind⟩ := paramLoop_eq hne hname (strstr_place hfound)
      (show url.length < url.length + 1 + i by omega)
    have hvalues :=
      congrArg (Option.map fun p => (urlDecode (p.takeWhile (· != 38))).take (size - 1).toNat) hfind
    rw [Option.map_map, Option.map_map] at hvalues
    simp only [hr, ok_bind, Option.bind_some, Nat.zero_add]
    cases r with
    | none => exact congrArg _ hvalues
    | some v =>
      simp only [urlCopy_value hsize, ok_bind]
      exact congrArg _ hvalues

/-- The answer is NULL exactly when no segment begins with the name and an equals sign; otherwise
it is what the first such segment holds up to the next ampersand, decoded and cut to the room. -/
theorem swUrlGetParamValue_eq {url name : Bytes} {size : Int} (hne : name ≠ [])
    (hname : Free name [63, 38]) (hsize : 1 ≤ size) :
    (swUrlGetParamValue url name size = .ok none ↔ ∀ s ∈ segments url, ¬name ++ [61] <+: s) ∧
      ∀ before s after, segments url = before ++ s :: after → (∀ t ∈ before, ¬name ++ [61] <+: t) →
        name ++ [61] <+: s → swUrlGetParamValue url name size =
          .ok (some ((urlDecode ((s.drop (name.length + 1)).takeWhile (· != 38))).take
          (size - 1).toNat)) := by
  have hbegins (s : Bytes) : begins name s = true ↔ name ++ [61] <+: s := isPrefixOf_iff_prefix
  rw [getParamValue_eq hne hname hsize]
  constructor
  · simp [hbegins]
  · intro before s after hsplit hbefore hs
    have hfind : (segments url).find? (begins name) = some s := by
      refine find?_eq_some_iff_append.2 ⟨(hbegins s).2 hs, before, after, hsplit, ?_⟩
      simpa [← hbegins] using hbefore
    rw [hfind]
    rfl

/-- Of `x?ab=1&b=%41&b=2` the value of b is `A`. -/
theorem swUrlGetParamValue_eq_second : swUrlGetParamValue
    [120, 63, 97, 98, 61, 49, 38, 98, 61, 37, 52, 49, 38, 98, 61, 50] [98] 8 = .ok (some [65]) :=
  ((swUrlGetParamValue_eq (by simp) (by simp [Free]) (by decide)).2 [_, _] _ [_] rfl (by decide)
    (by decide)).trans (by decide)

def blocksText (blocks : List (Bytes × UInt8)) : Bytes := blocks.flatMap fun b => b.1 ++ [b.2]

structure Other (name : Bytes) (b : Bytes × UInt8) : Prop where
  free : Free b.1 [63, 38]
  delimiter : b.2 ∈ ([63, 38] : Bytes)
  other : ¬name ++ [61] <+: b.1

theorem segments_append (hw : Free w [63, 38]) (hs : s ∈ ([63, 38] : Bytes)) :
    segments (w ++ s :: url) = (w ++ s :: url) :: segments url := by
  have hbehind : behindDelimiters (w ++ s :: url) = segments url := by
    induction w with
    | nil => exact if_pos (by simpa using hs)
    | cons c w ih =>
      have hc : ¬(c = 63 ∨ c = 38) := by simpa using hw c mem_cons_self
      rw [cons_append, behindDelimiters, if_neg hc, ih fun d hd => hw d (mem_cons_of_mem _ hd)]
  rw [← hbehind, segments]

theorem Other.not_begins (hw : Other name (w, s)) (hname : Free name [63, 38]) :
    begins name (w ++ s :: url) = false := by
  have hs : s ∉ name ++ [61] := by
    intro h
    rcases mem_append.1 h with h | h
    · exact hname s h hw.delimiter
    · have hdelimiter : s ∈ ([63, 38] : Bytes) := hw.delimiter
      rw [mem_singleton.1 h] at hdelimiter
      exact absurd hdelimiter (by decide)
  rw [begins, Bool.eq_false_iff, ne_eq, isPrefixOf_iff_prefix]
  intro hprefix
  rcases Nat.lt_or_ge w.length (name ++ [61]).length with hshort | hlong
  · have hin : w ++ [s] <+: name ++ [61] := by
      refine prefix_of_prefix_length_le ⟨url, by simp⟩ hprefix ?_
      rw [length_append, length_singleton]
      exact hshort
    exact hs (hin.subset (by simp))
  · exact hw.other (prefix_of_prefix_length_le hprefix (prefix_append _ _) hlong)

theorem segments_blocks (hname : Free name [63, 38]) (hblocks : ∀ b ∈ blocks, Other name b)
    (url : Bytes) :
    (segments (blocksText blocks ++ url)).find? (begins name) = (segments url).find?
    (begins name) := by
  induction blocks with
  | nil => rfl
  | cons b blocks ih =>
    obtain ⟨hb, hblocks⟩ := forall_mem_cons.1 hblocks
    have htext : blocksText (b :: blocks) ++ url = b.1 ++ b.2 :: (blocksText blocks ++ url) := by
      simp [blocksText]
    rw [htext, segments_append hb.free hb.delimiter,
      find?_cons_of_neg (by simp [hb.not_begins hname]), ih hblocks]

theorem param_found (hne : name ≠ []) (hname : Free name [63, 38]) (hblocks : ∀ b ∈ blocks,
    Other name b) (hv : 0 ∉ v) (hsize : (v.length : Int) < size) (hrest : ∀ c ∈ rest.head?, c = 38)
    (hurl : url = blocksText blocks ++ (name ++ 61 :: (urlEncode v ++ rest))) :
    swUrlGetParamValue url name size = .ok (some v) := by
  have hbegins : begins name (name ++ 61 :: (urlEncode v ++ rest)) = true :=
    isPrefixOf_iff_prefix.2 ⟨urlEncode v ++ rest, by simp⟩
  have hspan : (urlEncode v ++ rest).takeWhile (· != 38) = urlEncode v := by
    have hall : ∀ c ∈ urlEncode v, (c != 38) = true := by
      intro c hc
      exact bne_iff_ne.2 fun e => urlEncode_free hv c hc (by simp [e])
    rw [takeWhile_append_of_pos hall]
    cases rest with
    | nil => simp
    | cons c rest => simp [hrest c rfl]
  have hdecode : urlDecode (urlEncode v) = v := decodeLoop_escaped rfl le_rfl
  rw [getParamValue_eq hne hname (by omega), hurl, segments_blocks hname hblocks, segments,
    find?_cons_of_pos hbegins, Option.map_some, ← drop_drop, drop_left, drop_one, tail_cons, hspan,
      hdecode,
    take_of_length_le (by omega)]

structure Param where
  name : Bytes
  value : CString
  addr : UInt32
  name_ne_nil : name ≠ []
  name_alnum : ∀ c ∈ name, isAlnum c = true
  addr_valid : ¬addr.toNat < pageSize

def Param.format (p : Param) : Bytes := p.name ++ [61, 37, 115]

def Param.text (p : Param) : Bytes := p.name ++ 61 :: urlEncode p.value.bytes

section
variable {params : List Param}

theorem Param.name_free (p : Param) (hbad : ∀ c ∈ bad, isAlnum c = false) : Free p.name bad := by
  intro c hc hmem
  have := p.name_alnum c hc
  rw [hbad c hmem] at this
  cases this

theorem free_intercalate (hxs : ∀ x ∈ xs, Free x bad) (hamp : 38 ∉ bad) :
    Free (intercalate [38] xs) bad := by
  induction xs with
  | nil => simp [intercalate, Free]
  | cons x xs ih =>
    have hx := hxs x mem_cons_self
    have hrest := ih fun y hy => hxs y (mem_cons_of_mem _ hy)
    cases xs with
    | nil => simpa [intercalate] using hx
    | cons y ys =>
      rw [intercalate_cons_cons]
      exact (hx.append (Free.cons hamp (by simp [Free]))).append hrest

theorem formats_nulFree : 0 ∉ [37, 83, 63] ++ intercalate [38] (params.map Param.format) := by
  have hparams : Free (intercalate [38] (params.map Param.format)) [0] := by
    refine free_intercalate (fun x hx => ?_) (by decide)
    obtain ⟨p, -, rfl⟩ := mem_map.1 hx
    exact (p.name_free (by simp [isAlnum])).append (by simp [Free])
  have hall : Free ([37, 83, 63] ++ intercalate [38] (params.map Param.format)) [0] :=
    Free.append (by simp [Free]) hparams
  exact hall.not_mem (by simp)

def queryFormat (params : List Param) : CString where
  bytes := [37, 83, 63] ++ intercalate [38] (params.map Param.format)
  nulFree := formats_nulFree

def queryText (base : CString) (params : List Param) : Bytes :=
  base.bytes ++ 63 :: intercalate [38] (params.map Param.text)

def queryArgs (base : CString) (addr : UInt32) (params : List Param) : List Arg :=
  .text addr base :: params.map fun p => .text p.addr p.value

theorem Param.prints (p : Param) : Prints urlEscape p.format [.text p.addr p.value] p.text := by
  have hname : Prints urlEscape (p.name ++ [61]) [] (p.name ++ [61]) := by
    refine Prints.text fun c hc e => ?_
    have hfree : Free (p.name ++ [61]) [37] :=
      (p.name_free (by simp [isAlnum])).append (by simp [Free])
    exact hfree c hc (by simp [e])
  have hvalue := Prints.string urlEscape_emits p.addr_valid p.value
  have := hname.append hvalue
  rw [append_assoc, append_assoc] at this
  exact this

theorem params_print : Prints urlEscape (intercalate [38] (params.map Param.format))
      (params.map fun p => .text p.addr p.value) (intercalate [38] (params.map Param.text)) := by
  induction params with
  | nil => exact .nil _
  | cons p params ih =>
    cases params with
    | nil => simpa [intercalate] using p.prints
    | cons q params =>
      have hamp : Prints urlEscape [38] [] [38] := .literal (by decide)
      have := (p.prints.append hamp).append ih
      simp only [map_cons, intercalate_cons_cons] at this ⊢
      exact this

theorem query_prints {addr : UInt32} (haddr : ¬addr.toNat < pageSize) :
    Prints urlEscape (queryFormat params).bytes (queryArgs base addr params)
    (queryText base params) := by
  have hmark : Prints urlEscape [63] [] [63] := .literal (by decide)
  exact ((Prints.rawString haddr base).append (hmark.append params_print))

theorem queryText_split {base : CString} {front : List Param} {p : Param} {back : List Param} :
    queryText base (front ++ p :: back) = blocksText
    ((base.bytes, 63) :: front.map fun q => (q.text, 38)) ++
        (p.name ++ 61 :: (urlEncode p.value.bytes ++ back.flatMap fun q => 38 :: q.text)) := by
  rw [queryText, map_append, map_cons, intercalate_middle]
  simp [blocksText, Param.text, flatMap_map]

theorem Param.other (p q : Param) (hne : q.name ≠ p.name) : Other p.name (q.text, 38) := by
  refine ⟨?_, by simp, ?_⟩
  · refine (q.name_free (by simp [isAlnum])).append (Free.cons (by decide) ?_)
    exact (urlEncode_free q.value.nulFree).mono (by simp)
  · rintro ⟨t, ht⟩
    have hp : 61 ∉ p.name := fun h => absurd (p.name_alnum 61 h) (by decide)
    have hq : 61 ∉ q.name := fun h => absurd (q.name_alnum 61 h) (by decide)
    have ht : p.name ++ 61 :: t = q.name ++ 61 :: urlEncode q.value.bytes := by
      rw [← singleton_append, ← append_assoc]
      exact ht
    have hfound := congrArg (strchr 61) ht
    rw [strchr_append hp, strchr_append hq, strchr_cons, strchr_cons] at hfound
    rw [Option.some.inj hfound] at ht
    exact hne (append_cancel_right ht).symm

theorem query_nulFree : 0 ∉ queryText base params := by
  have hbase : Free base.bytes [0] := by
    intro c hc h
    rw [mem_singleton.1 h] at hc
    exact base.nulFree hc
  have hparams : Free (intercalate [38] (params.map Param.text)) [0] := by
    refine free_intercalate (fun x hx => ?_) (by decide)
    obtain ⟨p, -, rfl⟩ := mem_map.1 hx
    refine (p.name_free (by simp [isAlnum])).append (Free.cons (by decide) ?_)
    exact (urlEncode_free p.value.nulFree).mono (by simp)
  exact (hbase.append (Free.cons (by decide) hparams)).not_mem (by simp)

/-- Every value that was printed into a url is read back from it. -/
theorem param_survives (base : CString) {addr : UInt32} (haddr : ¬addr.toNat < pageSize)
    (hbase : Free base.bytes [63, 38, 61]) (hnames : (params.map Param.name).Nodup) {mem : Bytes}
    (hroom : (queryText base params).length + 3 < mem.length) (hsize : mem.length < 2 ^ 31) :
    ∃ b, swUrlVsnprintf mem (queryFormat params) (queryArgs base addr params) = .ok b ∧
      ∀ p ∈ params, ∀ size : Int, p.value.bytes.length < size →
        swUrlGetParamValue (cstr b.mem) p.name size = .ok (some p.value.bytes) := by
  obtain ⟨b, hprint, -, htake, hzero⟩ := (query_prints haddr).vsnprintf
    (show (queryText base params).length < mem.length by omega) hsize
  refine ⟨b, hprint, fun p hp size hroom' => ?_⟩
  rw [cstr_printed htake hzero query_nulFree]
  obtain ⟨front, back, rfl⟩ := append_of_mem hp
  refine param_found p.name_ne_nil (p.name_free (by simp [isAlnum])) ?_ p.value.nulFree hroom' ?_
    queryText_split
  · intro b hb
    rcases mem_cons.1 hb with rfl | hb
    · refine ⟨hbase.mono (by simp), by simp, fun h => ?_⟩
      exact hbase.not_mem (c := 61) (by simp) (h.subset (by simp))
    · obtain ⟨q, hq, rfl⟩ := mem_map.1 hb
      refine p.other q fun heq => ?_
      rw [map_append] at hnames
      exact (nodup_append.1 hnames).2.2 _ (mem_map_of_mem hq) _ mem_cons_self heq
  · intro c hc
    cases back with
    | nil => cases hc
    | cons q back =>
      cases hc
      rfl

/-- The values `a=1` and `&` of the parameters a and b of `h`. -/
theorem param_survives_delimiters :
    let params : List Param :=
    [⟨[97], ⟨[97, 61, 49], by simp⟩, 4096, by simp, by simp [isAlnum], by decide⟩,
      ⟨[98], ⟨[38], by simp⟩, 8192, by simp, by simp [isAlnum], by decide⟩]
    ∃ b, swUrlVsnprintf (replicate 20 0) (queryFormat params)
      (queryArgs ⟨[104], by simp⟩ 1024 params) =
        .ok b ∧ ∀ p ∈ params, ∀ size : Int, p.value.bytes.length < size →
        swUrlGetParamValue (cstr b.mem) p.name size = .ok (some p.value.bytes) :=
  param_survives ⟨[104], by simp⟩ (by decide) (by simp [Free]) (by simp) (by decide +kernel)
    (by simp)

end

end SwApi.Url
