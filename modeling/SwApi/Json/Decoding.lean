import SwApi.Json.Grammar

/-! What the decoder makes of a tree, and how much of the buffer it takes. -/
namespace SwApi.Json
open Library List

def align (n : Nat) : Nat := (n + 3) / 4 * 4

theorem bufAlloc_eq (hfits : (align n : Int) ≤ m.tail) (htail : m.tail < 2 ^ 31) :
    bufAlloc n m = .ok { m with tail := m.tail - align n } := by
  unfold align at *
  have hsize : int32 (n + 3) = n + 3 := int32_eq (by omega) (by omega)
  have hrest : int32 (m.tail - ((n + 3) / 4 * 4 : Nat)) = m.tail - ((n + 3) / 4 * 4 : Nat) :=
    int32_eq (by omega) (by omega)
  have hlen : int32 (n + 3) / 4 * 4 = (((n + 3) / 4 * 4 : Nat) : Int) := by
    rw [hsize]
    push_cast
    rfl
  rw [bufAlloc, hlen, if_neg (by omega), hrest]

def innerLength : Bytes → Nat
  | [] => 0
  | c :: p => if isQuote c then p.length - 1 else p.length + 1

def content (u : Bytes) : Bytes :=
  ((unquote ⟨u, u.length⟩ >>= fun s => unescape s.str s.len).toOption).getD []

theorem unescape_plain (hc : c ≠ 92) (p : Bytes) (len : Nat) :
    unescape (c :: p) (len + 1) = unescape p len >>= fun s => .ok (c :: s) := by
  cases p with
  | nil => exact if_neg hc
  | cons e p => exact if_neg fun h => hc h.1

@[simp] theorem unescape_zero (p : Bytes) : unescape p 0 = .ok [] := by
  rw [unescape.eq_def]

theorem unescape_local (h : len < p.length ∨ len = 0) :
    ∃ b, ∀ rest, unescape (p ++ rest) len = .ok b := by
  fun_induction unescape p len with
  | case1 p => exact ⟨[], fun rest => unescape_zero _⟩
  | case2 len | case3 len | case4 c len hslash ih => simp at h
  | case5 c e p len hctrl ih =>
    obtain ⟨b, hb⟩ := ih (by simp at h; omega)
    obtain ⟨rfl, hctrl⟩ := hctrl
    refine ⟨control e :: b, fun rest => ?_⟩
    rw [cons_append, cons_append, unescape.eq_def]
    simp [hctrl, hb rest]
  | case6 c e p len hctrl ih =>
    obtain ⟨b, hb⟩ := ih (by simp at h ⊢; omega)
    refine ⟨c :: b, fun rest => ?_⟩
    have hrest := hb rest
    rw [cons_append] at hrest
    rw [cons_append, cons_append, unescape, if_neg hctrl, hrest, ok_bind]

theorem unescape_atom (h : ∀ c ∈ u, isAlpha c = true) : unescape (u ++ rest) u.length = .ok u := by
  induction u with
  | nil => exact unescape_zero _
  | cons c u ih =>
    have hslash : c ≠ 92 := ne_of_isAlpha (h c mem_cons_self) (by decide)
    simp [unescape_plain hslash, ih (forall_mem_cons.1 h).2]

theorem IsUnit.inner (h : IsUnit u) :
    ∃ p b, ∀ rest, unquote ⟨u ++ rest, u.length⟩ = .ok ⟨p ++ rest, innerLength u⟩ ∧
      unescape (p ++ rest) (innerLength u) = .ok b := by
  rcases h.cases with ⟨c, p, rfl, hquote, hlength⟩ | ⟨hne, hall⟩
  · obtain ⟨m, hm, hpos, -, -, hlast, -⟩ := quotedLength_take hlength (by omega)
    have hmp : m = p.length := by omega
    subst hmp
    obtain ⟨b, hb⟩ : ∃ b, ∀ rest, unescape (p ++ rest) (p.length - 1) = .ok b :=
      unescape_local (by omega)
    have hget (rest : Bytes) : (c :: p ++ rest)[p.length]? = some c := by
      rw [getElem?_append_left (by simp), getElem?_cons, if_neg (by omega)]
      exact hlast
    refine ⟨p, b, fun rest => ⟨?_, by simpa [innerLength, hquote] using hb rest⟩⟩
    have hge : ¬(p.length + 1 < 2) := by omega
    simp only [unquote, cons_append, head?_cons, ofOption_some, ok_bind, hquote, if_true,
      length_cons, if_neg hge, Nat.add_sub_cancel]
    rw [← cons_append, hget]
    simp [innerLength, hquote]
  · cases u with
    | nil => exact absurd rfl hne
    | cons c p =>
      have hquote := not_isQuote_of_isAlpha (hall c mem_cons_self)
      refine ⟨c :: p, c :: p, fun rest => ⟨?_, ?_⟩⟩
      · simp [unquote, innerLength, hquote]
      · simpa [innerLength, hquote] using unescape_atom hall

theorem isUnit_quoted (h : quotedLength 34 (s ++ [34]) (s.length + 1) 1 = .ok
    (s.length + 2 : Nat)) : IsUnit (34 :: (s ++ [34])) := by
  refine ⟨by simp, ?_⟩
  rw [getStringLength_cons, if_pos (by decide)]
  simpa [Int.add_assoc] using h

theorem content_quoted (h : unescape (s ++ [34]) s.length = .ok b) :
    content (34 :: (s ++ [34])) = b := by
  have hunquote : unquote ⟨34 :: (s ++ [34]), (34 :: (s ++ [34])).length⟩ = .ok
    ⟨s ++ [34], s.length⟩ := by
    simp [unquote, isQuote]
  rw [content, hunquote, ok_bind, h]
  rfl

def unitNeed (u : Bytes) : Nat := align (innerLength u + 1)

theorem bufStrdup_unit (h : IsUnit u) (hfits : (unitNeed u : Int) ≤ m.tail)
    (htail : m.tail < 2 ^ 31) :
    bufStrdup ⟨u ++ rest, u.length⟩ m = .ok (content u,
    { m with tail := m.tail - unitNeed u }) := by
  obtain ⟨p, b, hinner⟩ := h.inner
  have hcontent : content u = b := by
    obtain ⟨hquote, hescape⟩ := hinner []
    rw [append_nil] at hquote
    rw [content, hquote, ok_bind, hescape]
    rfl
  obtain ⟨hquote, hescape⟩ := hinner rest
  have halloc : bufAlloc ((innerLength u : Int) + 1) m = .ok
    { m with tail := m.tail - unitNeed u } :=
    bufAlloc_eq hfits htail
  rw [bufStrdup, hquote, ok_bind, halloc, ok_bind, hescape, ok_bind, hcontent]

def Kind.least : Kind → Nat
  | .object => 4
  | .array => 2

def Kind.cell : Kind → Nat
  | .object => nameValueSize
  | .array => jsonSize

def Kind.wrap : Kind → Option (List (Bytes × SwJson)) → SwJson
  | .object, members => .obj members
  | .array, members => .arr (members.map (List.map Prod.snd))

/-- The decoder has room for that many elements of a container and leaves the others. -/
def cap : Nat := 16384

/-- A container that is too short for an element is not looked at. -/
def Tree.isShort (k : Kind) (v : Tree) : Bool := v.text.length / k.least == 0

def labelNeed : Option Label → Nat
  | none => 0
  | some l => unitNeed l.name

def labelContent : Option Label → Bytes
  | none => []
  | some l => content l.name

mutual
def Tree.need : Tree → Nat
  | .unit u => unitNeed u
  | .node k blank parts =>
      if Tree.isShort k (.node k blank parts) then 0
      else objectSize + (align (min cap parts.length * k.cell) + ((partsNeeds parts).take cap).sum)

def partsNeeds : List (Part Tree) → List Nat
  | [] => []
  | p :: parts => p.need :: partsNeeds parts

def Part.need : Part Tree → Nat
  | ⟨_, label, value, _⟩ => labelNeed label + value.need
end

mutual
def Tree.json : Tree → SwJson
  | .unit u => .str (content u)
  | .node k blank parts =>
      k.wrap (if Tree.isShort k (.node k blank parts) then none
        else some ((partsMembers parts).take cap))

def partsMembers : List (Part Tree) → List (Bytes × SwJson)
  | [] => []
  | p :: parts => p.member :: partsMembers parts

def Part.member : Part Tree → Bytes × SwJson
  | ⟨_, label, value, _⟩ => (labelContent label, value.json)
end

theorem partsNeeds_eq : ∀ parts, partsNeeds parts = parts.map Part.need := eq_map rfl fun _ _ => rfl

theorem partsMembers_eq : ∀ parts, partsMembers parts = parts.map Part.member :=
  eq_map rfl fun _ _ => rfl

section
variable {p : Part Tree}

theorem Part.Laid.least_le (h : p.Laid k) (hv : p.value.Valid) : k.least ≤ p.core.length + 1 := by
  have hvalue := length_pos_iff.2 hv.ne_nil
  rw [Part.core, length_append]
  cases k with
  | array =>
    rw [Kind.least]
    omega
  | object =>
    obtain ⟨l, hlabel, hunit, -⟩ := h.label.object
    have hname := length_pos_iff.2 hunit.1
    simp only [hlabel, labelText, Label.text, length_append, length_cons, Kind.least]
    omega

theorem tailText_length (hlaid : ∀ p ∈ parts, p.Laid k) (hvalues : ∀ p ∈ parts, p.value.Valid) :
    k.least * parts.length + 1 ≤ (tailText k.closing rest parts).length := by
  induction parts with
  | nil => simp [tailText]
  | cons p parts ih =>
    have hrest := ih (forall_mem_cons.1 hlaid).2
      (forall_mem_cons.1 hvalues).2
    have hp := (hlaid p mem_cons_self).least_le (hvalues p mem_cons_self)
    simp only [tailText, length_cons, length_append, Nat.mul_add, Nat.mul_one]
    omega

theorem node_text (k : Kind) (blank rest : Bytes) (p : Part Tree) (parts : List (Part Tree)) :
    (Tree.node k blank (p :: parts)).text ++ rest =
      k.opening :: (blank ++
      (p.before ++ (p.core ++ (p.behind ++ tailText k.closing rest parts)))) := by
  rw [← intercalate_tailText, Tree.text]
  simp

theorem Tree.Valid.count_le (h : (Tree.node k blank parts).Valid) :
    parts.length ≤ (Tree.node k blank parts).text.length / k.least := by
  cases h with
  | node hblank hlaid hvalues =>
    have hleast : 0 < k.least := by cases k <;> decide
    rw [Nat.le_div_iff_mul_le hleast, Nat.mul_comm]
    cases parts with
    | nil => simp
    | cons p parts =>
      have hp := (hlaid p mem_cons_self).least_le (hvalues p mem_cons_self)
      have htail : k.least * parts.length + 1 ≤ (tailText k.closing [] parts).length :=
        tailText_length (forall_mem_cons.1 hlaid).2
          (forall_mem_cons.1 hvalues).2
      have htext := congrArg List.length (node_text k blank [] p parts)
      simp only [append_nil, length_cons, length_append] at htext
      rw [htext, length_cons, Nat.mul_add, Nat.mul_one]
      omega

theorem Tree.Valid.not_short (h : (Tree.node k blank (p :: parts)).Valid) :
    Tree.isShort k (.node k blank (p :: parts)) = false := by
  have hcount := h.count_le
  rw [length_cons] at hcount
  simp only [Tree.isShort, beq_eq_false_iff_ne]
  omega

theorem mem_placed (h : q ∈ placed close rest parts) : q.1 ∈ parts := by
  induction parts with
  | nil => cases h
  | cons p parts ih =>
    rcases mem_cons.1 h with rfl | h
    · exact mem_cons_self
    · exact mem_cons_of_mem _ (ih h)

theorem placed_fst (close : UInt8) (rest : Bytes) (parts : List (Part Tree)) :
    (placed close rest parts).map Prod.fst = parts := by
  induction parts with
  | nil => rfl
  | cons p parts ih => rw [placed, map_cons, ih]

theorem length_value_lt (hp : p ∈ parts) :
    p.value.text.length < (Tree.node k blank parts).text.length := by
  have hle : p.text.length ≤ (intercalate [44] (partsTexts parts)).length := by
    induction parts with
    | nil => cases hp
    | cons q parts ih =>
      cases parts with
      | nil =>
        cases mem_singleton.1 hp
        simp [partsTexts, intercalate]
      | cons q' parts =>
        rw [partsTexts, partsTexts, intercalate_cons_cons, ← partsTexts]
        simp only [length_append, length_singleton]
        rcases mem_cons.1 hp with rfl | hp
        · omega
        · have := ih hp
          omega
  rw [Part.text_eq, Part.core] at hle
  rw [Tree.text]
  simp only [length_append, length_cons] at hle ⊢
  omega

end

section
variable {v : Tree} {f : Part Tree → Bytes → α} {g : Part Tree → β}

def TakesParts (element : Cursor → Attempt (α × Cursor)) (f : Part Tree → Bytes → α)
    (parts : List (Part Tree)) : Prop :=
  ∀ q ∈ parts, ∀ r left, q.core.length ≤ left → Stops r →
    element ⟨q.core ++ r, left⟩ = .ok (f q r, ⟨r, left - q.core.length⟩)

theorem elements_node (h : (Tree.node k blank parts).Valid)
    (helement : TakesParts element f parts) (hroom : 0 < maxcount)
    (hlen : (Tree.node k blank parts).text.length ≤ len) :
    elements k.closing element maxcount ⟨(Tree.node k blank parts).text ++ rest, len⟩ =
      .ok (((placed k.closing rest parts).take maxcount).map fun q => f q.1 q.2) := by
  cases h with
  | node hblank hlaid hvalues =>
    cases parts with
    | nil =>
      have htext : (Tree.node k blank []).text ++ rest =
        k.opening :: (blank ++ k.closing :: rest) := by
        simp [Tree.text, partsTexts, intercalate]
      have hlength : (Tree.node k blank []).text.length = blank.length + 2 := by
        simp [Tree.text, partsTexts, intercalate]
      obtain ⟨l, rfl⟩ : ∃ l, len = l + 1 := ⟨len - 1, by omega⟩
      obtain ⟨c, hsplit⟩ : ∃ c, split k.closing element maxcount (l + 1)
          ⟨blank ++ k.closing :: rest, l⟩ [] = .ok ([], c) :=
        split_close hblank (by omega)
      rw [elements, htext, drop_succ_cons, drop_zero, Nat.add_sub_cancel, hsplit, ok_bind,
        placed, take_nil]
      rfl
    | cons p parts =>
      have hp := hlaid p mem_cons_self
      have hw : Blank (blank ++ p.before) := forall_mem_append.2 ⟨hblank, hp.before⟩
      have hlength := congrArg List.length (node_text k blank [] p parts)
      rw [append_nil] at hlength
      rw [hlength, length_cons] at hlen
      rw [elements, node_text, drop_succ_cons, drop_zero, ← append_assoc blank]
      have hempty : ([] : List α).length < maxcount := hroom
      obtain ⟨c, hsplit⟩ := split_parts rest hw hlaid hvalues helement hempty
        (Nat.sub_le len 1) (by rw [append_assoc]; omega)
      rw [hsplit]
      rfl

theorem decodeAll_map {ξ : Type} {need : ξ → Nat} {slice : ξ → α} {value : ξ → β} {xs : List ξ}
    (h : ∀ x ∈ xs, ∀ m : Mem, (need x : Int) ≤ m.tail → m.tail < 2 ^ 31 →
      ∃ n, decode (slice x) m = .ok (value x, ⟨m.tail - need x, n⟩))
    (hfits : ((xs.map need).sum : Int) ≤ m.tail) (htail : m.tail < 2 ^ 31) :
    ∃ n, decodeAll decode (xs.map slice) m = .ok
    (xs.map value, ⟨m.tail - ((xs.map need).sum : Nat), n⟩) := by
  induction xs generalizing m with
  | nil => exact ⟨m.mallocs, by simp [decodeAll]⟩
  | cons x xs ih =>
    simp only [map_cons, sum_cons, Nat.cast_add] at hfits ⊢
    obtain ⟨n, hx⟩ := h x mem_cons_self m (by omega) htail
    obtain ⟨n', hxs⟩ := ih (m := ⟨m.tail - need x, n⟩) (forall_mem_cons.1 h).2
      (by dsimp only; omega) (by dsimp only; omega)
    refine ⟨n', ?_⟩
    simp only [decodeAll, hx, ok_bind, hxs, Int.sub_sub]

theorem decodeContainer_node {header len : Nat} (hheader : header = objectSize)
    (hmalloc : ∀ n, malloc n = true)
    (h : (Tree.node k blank parts).Valid) (hshort : Tree.isShort k (.node k blank parts) = false)
    (hlen : (Tree.node k blank parts).text.length ≤ len) (helement : TakesParts element f parts)
    (hdecode : ∀ q ∈ placed k.closing rest parts, ∀ m : Mem, (q.1.need : Int) ≤ m.tail →
      m.tail < 2 ^ 31 → ∃ n, decode (f q.1 q.2) m = .ok (g q.1, ⟨m.tail - q.1.need, n⟩))
    (hfits : ((Tree.node k blank parts).need : Int) ≤ m.tail) (htail : m.tail < 2 ^ 31) :
    ∃ n, decodeContainer malloc k.closing k.least header k.cell element decode
        ⟨(Tree.node k blank parts).text ++ rest, len⟩ m =
      .ok (some ((parts.map g).take cap), ⟨m.tail - (Tree.node k blank parts).need, n⟩) := by
  subst hheader
  have hmost : (Tree.node k blank parts).text.length / k.least ≤ len / k.least :=
    Nat.div_le_div_right hlen
  have hroom := h.count_le
  have hpos : (Tree.node k blank parts).text.length / k.least ≠
    0 := by simpa [Tree.isShort] using hshort
  have hzero : min 16384 (len / k.least) ≠ 0 := by omega
  have hlength : (placed k.closing rest parts).length = parts.length := by
    rw [← length_map Prod.fst, placed_fst]
  -- There is room for the elements by the length of the text, so that only the cap counts.
  have htaken : (placed k.closing rest parts).take (min 16384 (len / k.least)) =
      (placed k.closing rest parts).take cap := by
    rw [← take_take, take_of_length_le (show _ ≤ len / k.least by omega)]
    rfl
  have hparts (γ : Type) (g : Part Tree → γ) :
      (((placed k.closing rest parts).take cap).map fun q => g q.1) = (parts.map g).take cap := by
    conv_rhs => rw [← placed_fst k.closing rest parts, map_map, ← map_take]
    rfl
  rw [Tree.need, hshort, if_neg Bool.false_ne_true] at hfits ⊢
  rw [partsNeeds_eq, Nat.cast_add, Nat.cast_add] at hfits
  rw [partsNeeds_eq]
  have hheader : align objectSize = objectSize := by decide
  have helements : elements k.closing element (min 16384 (len / k.least))
      ⟨(Tree.node k blank parts).text ++ rest, len⟩ = _ := elements_node h helement (by omega) hlen
  rw [htaken] at helements
  have hhead (n : Nat) : bufAlloc objectSize ⟨m.tail, n⟩ = .ok ⟨m.tail - objectSize, n⟩ := by
    have h := bufAlloc_eq (n := objectSize) (m := ⟨m.tail, n⟩)
      (by rw [hheader]; dsimp only; omega) htail
    rwa [hheader] at h
  have hcells (nv : List α) (hnv : nv.length = min cap parts.length) (n : Nat) :
      bufAlloc (nv.length * k.cell) ⟨m.tail - objectSize, n⟩ =
        .ok ⟨m.tail - objectSize - align (min cap parts.length * k.cell), n⟩ := by
    rw [hnv, ← Nat.cast_mul]
    exact bufAlloc_eq (by dsimp only; omega) (by dsimp only; omega)
  obtain ⟨n, hall⟩ := decodeAll_map
    (m := ⟨m.tail - objectSize - align (min cap parts.length * k.cell), m.mallocs + 1⟩)
    (fun q hq => hdecode q (mem_of_mem_take hq))
    (by rw [hparts]; dsimp only; omega) (by dsimp only; omega)
  rw [hparts, hparts] at hall
  refine ⟨n, ?_⟩
  rw [decodeContainer, if_neg hzero, Mem.malloc, if_pos (hmalloc _), ok_bind, helements, ok_bind,
    hhead, ok_bind, hcells _ (by simp [hlength]), ok_bind, hall, ok_bind]
  simp only [Nat.cast_add, Int.sub_sub, Int.add_assoc]

def Part.slices (q : Part Tree) (r : Bytes) : Slice × Slice :=
  (⟨q.core ++ r, (q.label.map fun l => l.name.length).getD 0⟩,
    ⟨q.value.text ++ r, q.value.text.length⟩)

theorem takesParts_namedValue (hlaid : ∀ q ∈ parts, q.Laid .object)
    (hvalues : ∀ q ∈ parts, q.value.Valid) : TakesParts namedValue Part.slices parts := by
  intro q hq r left hleft hstop
  obtain ⟨l, hlabel, hname, hbefore, hafter⟩ := (hlaid q hq).label.object
  unfold Part.slices Part.core at *
  rw [hlabel] at hleft ⊢
  exact namedValue_eq hname hbefore hafter (hvalues q hq) hleft hstop

theorem takesParts_value (hlaid : ∀ q ∈ parts, q.Laid .array)
    (hvalues : ∀ q ∈ parts, q.value.Valid) :
    TakesParts (piece valueLength) (fun q r => (q.slices r).2) parts := by
  intro q hq r left hleft hstop
  unfold Part.core at *
  rw [(hlaid q hq).label.array] at hleft ⊢
  exact (hvalues q hq).piece hleft (.inr hstop)

theorem Part.need_eq (q : Part Tree) : q.need = labelNeed q.label + q.value.need := by
  rw [Part.need]

theorem Part.member_eq (q : Part Tree) : q.member = (labelContent q.label, q.value.json) := by
  rw [Part.member]

theorem decodeMember_part {q : Part Tree} {r : Bytes}
    {decode : Slice → Mem → Attempt (SwJson × Mem)}
    (hlaid : q.Laid .object) (hvalue : ∀ m : Mem, (q.value.need : Int) ≤ m.tail → m.tail < 2 ^ 31 →
      ∃ n, decode (q.slices r).2 m = .ok (q.value.json, ⟨m.tail - q.value.need, n⟩))
    (hfits : (q.need : Int) ≤ m.tail) (htail : m.tail < 2 ^ 31) :
    ∃ n, decodeMember decode (q.slices r) m = .ok (q.member, ⟨m.tail - q.need, n⟩) := by
  obtain ⟨l, hq, hunit, -⟩ := hlaid.label.object
  rw [Part.need_eq, hq] at hfits ⊢
  rw [Part.member_eq, hq]
  simp only [labelNeed, Nat.cast_add] at hfits
  have hname : bufStrdup (q.slices r).1 m = .ok
    (content l.name, { m with tail := m.tail - unitNeed l.name }) := by
    rw [Part.slices, Part.core, hq]
    simp only [labelText, Label.text, append_assoc, Option.map_some, Option.getD_some]
    exact bufStrdup_unit hunit (by omega) htail
  obtain ⟨n, hvalue⟩ := hvalue { m with tail := m.tail - unitNeed l.name } (by dsimp only; omega)
    (by dsimp only; omega)
  refine ⟨n, ?_⟩
  simp only [decodeMember, hname, ok_bind, hvalue, labelNeed, labelContent, Nat.cast_add,
    Int.sub_sub]

theorem decodeValue_object (hs : s.str.head? = some 123) :
    decodeValue malloc (fuel + 1) s m = decodeObject malloc (decodeValue malloc fuel) s m := by
  simp [decodeValue, hs]

theorem decodeValue_array (hs : s.str.head? = some 91) :
    decodeValue malloc (fuel + 1) s m = decodeArray malloc (decodeValue malloc fuel) s m := by
  simp [decodeValue, hs]

theorem head?_node : ((Tree.node k blank parts).text ++ rest).head? = some k.opening := by
  rw [Tree.text]
  rfl

theorem decodeValue_node (hmalloc : ∀ n, malloc n = true)
    (h : (Tree.node k blank parts).Valid) (hshort : Tree.isShort k (.node k blank parts) = false)
    (hlen : (Tree.node k blank parts).text.length ≤ len)
    (hvalue : ∀ q ∈ placed k.closing rest parts, ∀ m : Mem, (q.1.value.need : Int) ≤ m.tail →
      m.tail < 2 ^ 31 → ∃ n, decodeValue malloc fuel (q.1.slices q.2).2 m =
        .ok (q.1.value.json, ⟨m.tail - q.1.value.need, n⟩))
    (hfits : ((Tree.node k blank parts).need : Int) ≤ m.tail) (htail : m.tail < 2 ^ 31) :
    ∃ n, decodeValue malloc (fuel + 1) ⟨(Tree.node k blank parts).text ++ rest, len⟩ m =
      .ok ((Tree.node k blank parts).json, ⟨m.tail - (Tree.node k blank parts).need, n⟩) := by
  rw [Tree.json, hshort, if_neg Bool.false_ne_true]
  cases h with
  | node hblank hlaid hvalues =>
  have hvalid : (Tree.node k blank parts).Valid := .node hblank hlaid hvalues
  cases k with
  | object =>
    obtain ⟨n, hall⟩ := decodeContainer_node rfl hmalloc hvalid hshort hlen
      (takesParts_namedValue hlaid hvalues)
      (fun q hq m hfits htail => decodeMember_part (hlaid _ (mem_placed hq))
        (hvalue q hq) hfits htail)
      hfits htail
    simp only [Kind.closing, Kind.least, Kind.cell] at hall
    refine ⟨n, ?_⟩
    rw [decodeValue_object head?_node, decodeObject, hall, partsMembers_eq]
    rfl
  | array =>
    have hneed (q : Part Tree) (hq : q ∈ parts) : q.need = q.value.need := by
      rw [Part.need_eq, (hlaid q hq).label.array, labelNeed, Nat.zero_add]
    obtain ⟨n, hall⟩ := decodeContainer_node (g := fun q => q.value.json) rfl hmalloc hvalid hshort
      hlen (takesParts_value hlaid hvalues)
      (fun q hq m hfits htail => by
        rw [hneed _ (mem_placed hq)] at hfits ⊢
        exact hvalue q hq m hfits htail)
      hfits htail
    simp only [Kind.closing, Kind.least, Kind.cell] at hall
    refine ⟨n, ?_⟩
    rw [decodeValue_array head?_node, decodeArray]
    simp [show arraySize = objectSize from rfl, hall, partsMembers_eq, Kind.wrap, Part.member_eq,
      ← map_take]

theorem decodeValue_short {fuel : Nat} (hshort : Tree.isShort k (.node k blank parts) = true) :
    decodeValue malloc (fuel + 1)
        ⟨(Tree.node k blank parts).text ++ rest, (Tree.node k blank parts).text.length⟩ m =
      .ok ((Tree.node k blank parts).json, m) := by
  have hzero : (Tree.node k blank parts).text.length / k.least = 0 := by
    simpa [Tree.isShort] using hshort
  rw [Tree.json, if_pos hshort]
  cases k with
  | object =>
    rw [decodeValue_object head?_node, decodeObject, decodeContainer]
    simp only [show (Tree.node .object blank parts).text.length / 4 = 0 from hzero]
    rfl
  | array =>
    rw [decodeValue_array head?_node, decodeArray, decodeContainer]
    simp only [show (Tree.node .array blank parts).text.length / 2 = 0 from hzero]
    rfl

theorem decodeValue_tree (hmalloc : ∀ n, malloc n = true) (h : v.Valid)
    (hfuel : v.text.length < fuel) (hfits : (v.need : Int) ≤ m.tail) (htail : m.tail < 2 ^ 31) :
    ∃ n, decodeValue malloc fuel ⟨v.text ++ rest, v.text.length⟩ m = .ok
    (v.json, ⟨m.tail - v.need, n⟩) := by
  induction h generalizing fuel rest m with
  | @unit u hu =>
    obtain ⟨n, rfl⟩ : ∃ n, fuel = n + 1 := ⟨fuel - 1, by omega⟩
    obtain ⟨c, tail, rfl, -, h₁, h₂⟩ := hu.opens
    refine ⟨m.mallocs, ?_⟩
    have hstr : bufStrdup ⟨c :: tail ++ rest, (c :: tail).length⟩ m = _ :=
      bufStrdup_unit hu hfits htail
    rw [Tree.text] at *
    simp only [decodeValue, cons_append, head?_cons, ofOption_some, ok_bind, if_neg h₁, if_neg h₂]
    rw [← cons_append, hstr]
    rfl
  | @node k blank parts hblank hlaid hvalues ih =>
    obtain ⟨n, rfl⟩ : ∃ n, fuel = n + 1 := ⟨fuel - 1, by omega⟩
    cases hshort : Tree.isShort k (.node k blank parts) with
    | true =>
      refine ⟨m.mallocs, ?_⟩
      rw [Tree.need, if_pos hshort, Nat.cast_zero, Int.sub_zero]
      exact decodeValue_short hshort
    | false =>
      refine decodeValue_node hmalloc (.node hblank hlaid hvalues) hshort le_rfl ?_ hfits htail
      intro q hq m hfits htail
      have hmem := mem_placed hq
      have hlt : q.1.value.text.length < (Tree.node k blank parts).text.length :=
        length_value_lt hmem
      exact ih q.1 hmem (by omega) hfits htail

theorem skip_tree (hlead : Blank lead) (h : v.Valid) :
    skip (fun _ => false) (lead ++ (v.text ++ trail) ++ [0]) (lead ++ (v.text ++ trail)).length 0 =
      .ok (0, ⟨v.text ++ (trail ++ [0]), v.text.length + trail.length⟩) := by
  obtain ⟨ch, tail, hch, hopens⟩ := h.opens
  have hleft : (lead ++ (v.text ++ trail)).length - lead.length =
    v.text.length + trail.length := by simp
  rw [append_assoc, skip_blanks hlead (by simp), hleft, append_assoc, hch, cons_append]
  exact skip_stop hopens.plain.1 rfl

theorem swJsonDecode_node (hmalloc : ∀ n, malloc n = true)
    (hlead : Blank lead) (h : (Tree.node k blank parts).Valid)
    (htrail : trail = [] ∨ Tree.isShort k (.node k blank parts) = false)
    (hsize : ((Tree.node k blank parts).need : Int) + jsonSize < size) (hint : size < 2 ^ 31) :
    swJsonDecode malloc (lead ++ ((Tree.node k blank parts).text ++ trail)) size =
      .ok (Tree.node k blank parts).json := by
  have hmtail : int32 (size - jsonSize) = size - jsonSize := by
    unfold jsonSize at *
    exact int32_eq (by omega) (by omega)
  have hdecoded :
    ∃ n, decodeValue malloc ((lead ++ ((Tree.node k blank parts).text ++ trail)).length + 1)
      ⟨(Tree.node k blank parts).text ++ (trail ++ [0]),
        (Tree.node k blank parts).text.length + trail.length⟩ ⟨size - jsonSize, 0⟩ =
      .ok ((Tree.node k blank parts).json, ⟨size - jsonSize - (Tree.node k blank parts).need,
        n⟩) := by
    have hmem : (size - jsonSize : Int) < 2 ^ 31 := by
      unfold jsonSize
      omega
    rcases htrail with rfl | hshort
    · exact decodeValue_tree hmalloc h (by simp only [length_append]; omega)
        (by dsimp only; omega) hmem
    · refine decodeValue_node hmalloc h hshort (by omega) ?_ (by dsimp only; omega) hmem
      intro q hq m hfits htail
      have hq := mem_placed hq
      have hlt : q.1.value.text.length < (Tree.node k blank parts).text.length := length_value_lt hq
      cases h with
      | node _ _ hvalues =>
        exact decodeValue_tree hmalloc (hvalues _ hq) (by simp only [length_append]; omega) hfits
          htail
  obtain ⟨n, hdecoded⟩ := hdecoded
  rw [swJsonDecode, skip_tree hlead h, ok_bind]
  simp only [hmtail]
  rw [if_neg (by omega), hdecoded]
  rfl

end

end SwApi.Json
