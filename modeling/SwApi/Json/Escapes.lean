import SwApi.Format.Output
import SwApi.Json.Decoding
import SwApi.Library.Lists

/-! The escapes of the printer against those of the decoder. The printer writes a tab as `\t`,
which the decoder takes for two bytes. -/
namespace SwApi.Json
open Library List
open Format (jsonEscape jsonLetter jsonVsnprintf Prints Arg)

def jsonCode (c : UInt8) : Bytes := [92, jsonLetter c]

theorem jsonEscape_emits : jsonEscape.Emits jsonCode := by
  intro c b hroom
  have hroom : b.str < b.mem.length := by
    simp only [jsonCode, length_cons] at hroom
    omega
  have hstore : b.store 92 = .ok (b.put 92) := Format.store_eq_put hroom
  simp only [jsonEscape, hstore, ok_bind]
  rfl

def escaped (s : Bytes) : Bytes := jsonEscape.encode jsonCode s

def kept (s : Bytes) : Bytes := s.flatMap fun c => if c = 9 then [92, 116] else [c]

theorem special_cases (h : jsonEscape.special c = true) :
    c = 9 ∨ isCtrl (jsonLetter c) = true ∧ control (jsonLetter c) = c := by
  simp only [jsonEscape, Bool.or_eq_true, beq_iff_eq] at h
  rcases h with (((((((rfl | rfl) | rfl) | rfl) | rfl) | rfl) | rfl) | rfl)
  all_goals decide

theorem not_special (h : jsonEscape.special c = false) : c ≠ 92 ∧ c ≠ 34 ∧ c ≠ 9 := by
  refine ⟨?_, ?_, ?_⟩
  all_goals
    rintro rfl
    cases h

theorem escaped_cons : escaped (c :: s) = (if jsonEscape.special c then jsonCode c else [c]) ++
    escaped s := rfl

theorem escaped_length (hleft : (escaped s).length < left) :
    quotedLength 34 (escaped s ++ [34]) left n = .ok (n + (escaped s).length + 1 : Nat) := by
  induction s generalizing left n with
  | nil =>
    obtain ⟨l, rfl⟩ : ∃ l, left = l + 1 := ⟨left - 1, by omega⟩
    exact (quotedLength_plain (by decide)).trans (if_pos rfl)
  | cons c s ih =>
    rw [escaped_cons] at hleft ⊢
    cases hspecial : jsonEscape.special c with
    | false =>
      rw [hspecial, if_neg Bool.false_ne_true] at hleft
      obtain ⟨l, rfl⟩ : ∃ l, left = l + 1 := ⟨left - 1, by omega⟩
      obtain ⟨hslash, hquote, -⟩ := not_special hspecial
      rw [if_neg Bool.false_ne_true, append_assoc, singleton_append, quotedLength_plain hslash,
        if_neg hquote, ih (by simpa using hleft)]
      congr 2
      simp
      omega
    | true =>
      rw [hspecial, if_pos rfl] at hleft
      obtain ⟨l, rfl⟩ : ∃ l, left = l + 2 := ⟨left - 2, by simp [jsonCode] at hleft; omega⟩
      have hrest : quotedLength 34 (escaped s ++ [34]) l (n + 2) = .ok
        (n + 2 + (escaped s).length + 1 : Nat) :=
        ih (by simpa [jsonCode] using hleft)
      have hcount : n + (jsonCode c ++ escaped s).length + 1 = n + 2 + (escaped s).length + 1 := by
        simp [jsonCode]
        omega
      rw [if_pos rfl, hcount, ← hrest, append_assoc]
      rcases special_cases hspecial with rfl | ⟨hctrl, -⟩
      · -- The decoder goes on with the letter t.
        have hletter : isCtrl 116 = false := by decide
        exact (quotedLength_slash hletter).trans
          ((quotedLength_plain (by decide)).trans (if_neg (by decide)))
      · exact quotedLength_ctrl hctrl

theorem isUnit_escaped : IsUnit (34 :: (escaped s ++ [34])) := by
  apply isUnit_quoted
  rw [escaped_length (by omega)]
  congr 2
  omega

theorem unescape_escaped : unescape (escaped s ++ rest) (escaped s).length = .ok (kept s) := by
  induction s with
  | nil => exact unescape_zero _
  | cons c s ih =>
    have hkept : kept (c :: s) = (if c = 9 then [92, 116] else [c]) ++ kept s := rfl
    rw [escaped_cons, hkept]
    cases hspecial : jsonEscape.special c with
    | false =>
      obtain ⟨hslash, -, htab⟩ := not_special hspecial
      rw [if_neg Bool.false_ne_true, if_neg htab, singleton_append, cons_append, length_cons,
        unescape_plain hslash, ih]
      rfl
    | true =>
      rw [if_pos rfl]
      rcases special_cases hspecial with rfl | ⟨hctrl, hcontrol⟩
      · have hletter : isCtrl 116 = false := by decide
        have hrest : unescape (116 :: (escaped s ++ rest)) ((escaped s).length + 1) = .ok
          (116 :: kept s) := by
          rw [unescape_plain (by decide), ih, ok_bind]
        calc unescape (92 :: 116 :: (escaped s ++ rest)) ((escaped s).length + 2)
          _ = unescape (116 :: (escaped s ++ rest)) ((escaped s).length + 1) >>= fun s =>
            .ok (92 :: s) :=
            if_neg fun h => Bool.false_ne_true (hletter.symm.trans h.2)
          _ = .ok (92 :: 116 :: kept s) := by rw [hrest, ok_bind]
      · have htab : c ≠ 9 := by
          rintro rfl
          cases hctrl
        rw [if_neg htab]
        calc unescape (92 :: jsonLetter c :: (escaped s ++ rest)) ((escaped s).length + 2)
          _ = unescape (escaped s ++ rest) (escaped s).length >>= fun s =>
            .ok (control (jsonLetter c) :: s) :=
            if_pos ⟨rfl, hctrl⟩
          _ = .ok (c :: kept s) := by rw [ih, ok_bind, hcontrol]

theorem kept_eq_iff : kept s = s ↔ 9 ∉ s := by
  induction s with
  | nil => simp [kept]
  | cons c s ih =>
    rw [kept, flatMap_cons, ← kept]
    split
    · rename_i htab
      subst htab
      simp
    · rename_i htab
      simp only [List.singleton_append, List.cons.injEq, true_and, ih, List.mem_cons, not_or]
      exact ⟨fun h => ⟨fun h' => htab h'.symm, h⟩, And.right⟩

/-- A container with a place for the value of one of its elements. -/
structure Frame where
  kind : Kind
  blank : Bytes
  left : List (Part Tree)
  hole : Part Unit
  right : List (Part Tree)

def Part.fill (p : Part Unit) (v : Tree) : Part Tree := ⟨p.before, p.label, v, p.behind⟩

def Frame.plug (f : Frame) (v : Tree) : Tree :=
  .node f.kind f.blank (f.left ++ f.hole.fill v :: f.right)

structure Frame.Valid (f : Frame) : Prop where
  blank : Blank f.blank
  laid : ∀ p ∈ f.left ++ f.right, p.Laid f.kind ∧ p.value.Valid
  before : Blank f.hole.before
  behind : Blank f.hole.behind
  label : Fits f.kind f.hole.label

def Frame.pre (f : Frame) : Bytes :=
  f.kind.opening :: (f.blank ++ (f.left.flatMap (fun p => p.text ++ [44]) ++
    (f.hole.before ++ labelText f.hole.label)))

def Frame.post (f : Frame) : Bytes :=
  f.hole.behind ++ (f.right.flatMap (fun p => 44 :: p.text) ++ [f.kind.closing])

def plugAll (frames : List Frame) (v : Tree) : Tree := frames.foldr Frame.plug v

def preAll (frames : List Frame) : Bytes := frames.flatMap Frame.pre

def postAll : List Frame → Bytes
  | [] => []
  | f :: frames => postAll frames ++ f.post

def SwJson.child : SwJson → Nat → Option SwJson
  | .obj (some members), i => members[i]?.map Prod.snd
  | .arr (some values), i => values[i]?
  | _, _ => none

def SwJson.at (json : SwJson) : List Frame → Option SwJson
  | [] => some json
  | f :: frames => (json.child f.left.length).bind fun value => value.at frames

section
variable {f : Frame}

theorem Frame.plug_text (f : Frame) (v : Tree) : (f.plug v).text = f.pre ++ (v.text ++ f.post) := by
  rw [Frame.plug, Tree.text, partsTexts_eq, map_append, map_cons, intercalate_middle, Frame.pre,
    Frame.post]
  simp [Part.text_eq, Part.core, Part.fill, flatMap_map]

theorem plugAll_text : (plugAll frames v).text = preAll frames ++ (v.text ++ postAll frames) := by
  induction frames with
  | nil => simp [plugAll, preAll, postAll]
  | cons f frames ih =>
    rw [plugAll, foldr_cons, ← plugAll, Frame.plug_text, ih, postAll]
    simp [preAll]

theorem Frame.Valid.plug (h : f.Valid) (hv : v.Valid) : (f.plug v).Valid := by
  have hmem (p : Part Tree) (hp : p ∈ f.left ++ f.hole.fill v :: f.right) :
      p = f.hole.fill v ∨ p ∈ f.left ++ f.right := by
    simp only [mem_append, mem_cons] at hp ⊢
    rcases hp with hp | rfl | hp
    · exact .inr (.inl hp)
    · exact .inl rfl
    · exact .inr (.inr hp)
  refine .node h.blank ?_ ?_
  · intro p hp
    rcases hmem p hp with rfl | hp
    · exact ⟨h.before, h.behind, h.label⟩
    · exact (h.laid p hp).1
  · intro p hp
    rcases hmem p hp with rfl | hp
    · exact hv
    · exact (h.laid p hp).2

theorem plugAll_valid (h : ∀ f ∈ frames, f.Valid) (hv : v.Valid) : (plugAll frames v).Valid := by
  induction frames with
  | nil => exact hv
  | cons f frames ih =>
    exact (h f mem_cons_self).plug (ih (forall_mem_cons.1 h).2)

theorem Frame.not_short (h : (f.plug v).Valid) : Tree.isShort f.kind (f.plug v) = false := by
  rw [Frame.plug] at h ⊢
  cases hleft : f.left with
  | nil | cons p left =>
    rw [hleft] at h
    exact h.not_short

theorem Frame.child_plug (h : (f.plug v).Valid) :
    (f.plug v).json.child f.left.length = if f.left.length < cap then some v.json else none := by
  have hshort := Frame.not_short h
  have hmember : (partsMembers (f.left ++ f.hole.fill v :: f.right))[f.left.length]? =
      some (labelContent f.hole.label, v.json) := by
    rw [partsMembers_eq, getElem?_map, getElem?_append_right le_rfl]
    simp [Part.member_eq, Part.fill]
  rw [Frame.plug] at hshort ⊢
  rw [Tree.json, hshort, if_neg Bool.false_ne_true]
  cases f.kind with
  | object =>
    simp only [Kind.wrap, SwJson.child, getElem?_take]
    split
    · rw [hmember]
      rfl
    · rfl
  | array =>
    simp only [Kind.wrap, SwJson.child, Option.map_some, getElem?_map, getElem?_take]
    split
    · rw [hmember]
      rfl
    · rfl

theorem plugAll_at (h : ∀ f ∈ frames, f.Valid) (hv : v.Valid) : (plugAll frames v).json.at frames =
      if ∀ f ∈ frames, f.left.length < cap then some v.json else none := by
  induction frames with
  | nil => simp [SwJson.at, plugAll]
  | cons f frames ih =>
    have hrest := ih (forall_mem_cons.1 h).2
    have hvalid := plugAll_valid (forall_mem_cons.1 h).2 hv
    have hchild := Frame.child_plug ((h f mem_cons_self).plug hvalid)
    rw [SwJson.at, plugAll, foldr_cons, ← plugAll, hchild]
    simp only [mem_cons, forall_eq_or_imp]
    by_cases hroom : f.left.length < cap
    · simpa [hroom] using hrest
    · simp [hroom]

end

/-- A format prints a text with a string between quotes as a member of its innermost container.
The decoder gives the string back exactly if no byte of it is a tab and it has room for the
member. -/
theorem print_decode_iff {malloc : Nat → Bool} (hmalloc : ∀ n, malloc n = true)
    {frames : List Frame}
    (hne : frames ≠ []) (hframes : ∀ f ∈ frames, f.Valid) {fmt : CString} {fmt₁ fmt₂ : Bytes}
    (hfmt : fmt.bytes = fmt₁ ++ ([34, 37, 115, 34] ++ fmt₂)) {args₁ args₂ : List Arg}
    {lead trail : Bytes}
    (hlead : Blank lead) (hfirst : Prints jsonEscape fmt₁ args₁ (lead ++ preAll frames))
    (hlast : Prints jsonEscape fmt₂ args₂ (postAll frames ++ trail)) {addr : UInt32}
    (haddr : 1024 ≤ addr.toNat) (s : CString) {mem : Bytes}
    (hroom : (lead ++ (preAll frames ++ (34 :: (escaped s.bytes ++ [34]) ++ postAll frames) ++
      trail)).length < mem.length) (hmem : mem.length < 2 ^ 31) {size : Int}
    (hsize : ((plugAll frames (.unit (34 :: (escaped s.bytes ++ [34])))).need : Int) + jsonSize <
    size)
    (hint : size < 2 ^ 31) : ∃ b json, jsonVsnprintf mem fmt (args₁ ++ .text addr s :: args₂) =
      .ok b ∧ swJsonDecode malloc (b.mem.take b.str) size = .ok json ∧
      (json.at frames = some (.str s.bytes) ↔ 9 ∉ s.bytes ∧ ∀ f ∈ frames, f.left.length < cap) := by
  have hunit : (Tree.unit (34 :: (escaped s.bytes ++ [34]))).Valid := .unit isUnit_escaped
  have hquote : Prints jsonEscape [34] [] [34] := .literal (by decide)
  have hstring : Prints jsonEscape [37, 115] [.text addr s] (escaped s.bytes) :=
    .string jsonEscape_emits (by unfold Format.pageSize; omega) s
  have hprints : Prints jsonEscape fmt.bytes (args₁ ++ .text addr s :: args₂)
      (lead ++ (preAll frames ++ (34 :: (escaped s.bytes ++ [34]) ++ postAll frames) ++
        trail)) := by
    have hall := hfirst.append (hquote.append (hstring.append (hquote.append hlast)))
    simpa [hfmt] using hall
  obtain ⟨b, hprint, hstr, htake, -⟩ := hprints.vsnprintf hroom hmem
  have hvalid := plugAll_valid hframes hunit
  have hdecode : swJsonDecode malloc (b.mem.take b.str) size =
      .ok (plugAll frames (.unit (34 :: (escaped s.bytes ++ [34])))).json := by
    have htext : preAll frames ++ (34 :: (escaped s.bytes ++ [34]) ++ postAll frames) =
        (plugAll frames (.unit (34 :: (escaped s.bytes ++ [34])))).text := by
      rw [plugAll_text, Tree.text]
    rw [hstr, htake, htext]
    cases frames with
    | nil => exact absurd rfl hne
    | cons f frames =>
      exact swJsonDecode_node hmalloc hlead hvalid (.inr (Frame.not_short hvalid)) hsize hint
  refine ⟨b, _, hprint, hdecode, ?_⟩
  rw [plugAll_at hframes hunit, Tree.json, content_quoted unescape_escaped, ← kept_eq_iff]
  split
  · rename_i hcap
    simp [and_iff_left hcap]
  · rename_i hcap
    exact iff_of_false (Option.some_ne_none _).symm fun h => hcap h.2

/-- `{n:%d,a:["%s"]}` with a string that holds a quote and a newline. -/
theorem print_decode_iff_quote : ∃ b json, jsonVsnprintf (replicate 32 0)
        (cstring [123, 110, 58, 37, 100, 44, 97, 58, 91, 34, 37, 115, 34, 93, 125])
        [.word 5, .text 4096 (cstring [34, 10])] = .ok b ∧
      swJsonDecode (fun _ => true) (b.mem.take b.str) 256 = .ok json ∧
      ((json.child 1).bind (·.child 0)) = some (.str [34, 10]) := by
  let number : Part Tree := ⟨[], some ⟨[110], [], []⟩, .unit [53], []⟩
  let outer : Frame := ⟨.object, [], [number], ⟨[], some ⟨[97], [], []⟩, (), []⟩, []⟩
  let inner : Frame := ⟨.array, [], [], ⟨[], none, (), []⟩, []⟩
  have houter : outer.Valid := by
    refine ⟨blank_nil, ?_, blank_nil, blank_nil, ⟨by decide, rfl⟩, blank_nil, blank_nil⟩
    intro p hp
    cases mem_singleton.1 hp
    exact ⟨⟨blank_nil, blank_nil, ⟨by decide, rfl⟩, blank_nil, blank_nil⟩, .unit ⟨by decide, rfl⟩⟩
  have hinner : inner.Valid := ⟨blank_nil, by simp [inner], blank_nil, blank_nil, trivial⟩
  have hopening : Prints jsonEscape [123, 110, 58] [] [123, 110, 58] := .text (by simp)
  have hmember : Prints jsonEscape [44, 97, 58, 91] [] [44, 97, 58, 91] := .text (by simp)
  have hfirst : Prints jsonEscape [123, 110, 58, 37, 100, 44, 97, 58, 91] [.word 5]
      ([] ++ preAll [outer, inner]) := hopening.append ((Prints.decimal 5).append hmember)
  have hlast : Prints jsonEscape [93, 125] [] (postAll [outer, inner] ++ []) :=
    .text (show ∀ c ∈ [93, 125], c ≠ 37 by simp)
  have hframes : ∀ f ∈ [outer, inner], f.Valid := by simp [houter, hinner]
  have hmalloc : ∀ n, (fun _ => true : Nat → Bool) n = true := fun _ => rfl
  have hfmt : (cstring [123, 110, 58, 37, 100, 44, 97, 58, 91, 34, 37, 115, 34, 93, 125]).bytes =
      [123, 110, 58, 37, 100, 44, 97, 58, 91] ++ ([34, 37, 115, 34] ++ [93, 125]) := rfl
  have haddr : 1024 ≤ (4096 : UInt32).toNat := by decide
  obtain ⟨b, json, hprint, hdecode, hiff⟩ :=
    print_decode_iff hmalloc (by simp) hframes hfmt blank_nil hfirst
    hlast haddr (cstring [34, 10]) (show _ < (replicate 32 0).length by decide) (by decide)
    (show _ < (256 : Int) by decide) (by decide)
  refine ⟨b, json, hprint, hdecode, ?_⟩
  have hat : ((json.child 1).bind fun value => (value.child 0).bind some) = some (.str [34, 10]) :=
    hiff.2 ⟨by decide, by decide⟩
  simpa using hat

/-- A tab is not given back: `{a:"%s"}` of a tab prints `{a:"\t"}`, whose member the decoder
takes for a backslash and the letter t. -/
theorem tab_is_not_decoded :
    ∃ b, jsonVsnprintf (replicate 16 0) (cstring [123, 97, 58, 34, 37, 115, 34, 125])
        [.text 4096 (cstring [9])] = .ok b ∧
      swJsonDecode (fun _ => true) (b.mem.take b.str) 64 = .ok
      (.obj (some [([97], .str [92, 116])])) := by
  refine ⟨⟨[123, 97, 58, 34, 92, 116, 34, 125, 0, 0, 0, 0, 0, 0, 0, 0], 8, []⟩, ?_, ?_⟩ <;> rfl

end SwApi.Json
