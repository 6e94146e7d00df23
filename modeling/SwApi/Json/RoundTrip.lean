import SwApi.Json.Decoding

/-! The decoder inverts compact printing. -/
namespace SwApi.Json
open Library List

inductive Lexeme where
  | atom (s : Bytes) (hne : s ≠ []) (halpha : ∀ c ∈ s, isAlpha c = true)
  | quoted (s : Bytes) (hplain : ∀ c ∈ s, c ≠ 0 ∧ c ≠ 92 ∧ c ≠ 34)

def Lexeme.print : Lexeme → Bytes
  | .atom s _ _ => s
  | .quoted s _ => 34 :: (s ++ [34])

def Lexeme.value : Lexeme → Bytes
  | .atom s _ _ => s
  | .quoted s _ => s

structure Field (α : Type) where
  name : Lexeme
  value : α

inductive Doc where
  | leaf (s : Lexeme)
  | object (members : List (Field Doc))
  | array (values : List Doc)

mutual
def Doc.print : Doc → Bytes
  | .leaf s => s.print
  | .object members => 123 :: (intercalate [44] (printMembers members) ++ [125])
  | .array values => 91 :: (intercalate [44] (printValues values) ++ [93])

def printMembers : List (Field Doc) → List Bytes
  | [] => []
  | f :: members => f.print :: printMembers members

def Field.print : Field Doc → Bytes
  | ⟨name, value⟩ => name.print ++ 58 :: value.print

def printValues : List Doc → List Bytes
  | [] => []
  | d :: values => d.print :: printValues values
end

mutual
/-- The structure the decoder has to return; an object without members is a NULL pointer. -/
def Doc.json : Doc → SwJson
  | .leaf s => .str s.value
  | .object [] => .obj none
  | .object (f :: members) => .obj (some (f.json :: jsonMembers members))
  | .array values => .arr (some (jsonValues values))

def jsonMembers : List (Field Doc) → List (Bytes × SwJson)
  | [] => []
  | f :: members => f.json :: jsonMembers members

def Field.json : Field Doc → Bytes × SwJson
  | ⟨name, value⟩ => (name.value, value.json)

def jsonValues : List Doc → List SwJson
  | [] => []
  | d :: values => d.json :: jsonValues values
end

mutual
def Doc.tree : Doc → Tree
  | .leaf s => .unit s.print
  | .object members => .node .object [] (treeMembers members)
  | .array values => .node .array [] (treeValues values)

def treeMembers : List (Field Doc) → List (Part Tree)
  | [] => []
  | f :: members => f.part :: treeMembers members

def Field.part : Field Doc → Part Tree
  | ⟨name, value⟩ => ⟨[], some ⟨name.print, [], []⟩, value.tree, []⟩

def treeValues : List Doc → List (Part Tree)
  | [] => []
  | d :: values => ⟨[], none, d.tree, []⟩ :: treeValues values
end

inductive Doc.Small : Doc → Prop where
  | leaf (s) : Small (.leaf s)
  | object {members} (hcount : members.length ≤ 16384) (hvalues : ∀ f ∈ members, Small f.value) :
      Small (.object members)
  | array {values} (hcount : values.length ≤ 16384) (hvalues : ∀ d ∈ values, Small d) :
      Small (.array values)

theorem quotedLength_free (hfree : ∀ c ∈ s, c ≠ 92 ∧ c ≠ 34) (hleft : s.length < left) :
    quotedLength 34 (s ++ [34]) left n = .ok (n + s.length + 1 : Nat) := by
  induction s generalizing left n with
  | nil =>
    obtain ⟨l, rfl⟩ : ∃ l, left = l + 1 := ⟨left - 1, by omega⟩
    exact (quotedLength_plain (by decide)).trans (if_pos rfl)
  | cons c s ih =>
    obtain ⟨l, rfl⟩ : ∃ l, left = l + 1 := ⟨left - 1, by omega⟩
    obtain ⟨hslash, hquote⟩ := hfree c mem_cons_self
    rw [cons_append, quotedLength_plain hslash, if_neg hquote,
      ih (forall_mem_cons.1 hfree).2 (by simpa using hleft)]
    congr 2
    rw [length_cons]
    omega

theorem unescape_free (hfree : ∀ c ∈ s, c ≠ 92) : unescape (s ++ rest) s.length = .ok s := by
  induction s with
  | nil => exact unescape_zero _
  | cons c s ih =>
    simp [unescape_plain (hfree c mem_cons_self), ih (forall_mem_cons.1 hfree).2]

theorem Lexeme.isUnit (x : Lexeme) : IsUnit x.print := by
  cases x with
  | atom s hne halpha => exact isUnit_atom hne halpha fun _ => not_isQuote_of_isAlpha
  | quoted s hplain =>
    apply isUnit_quoted
    rw [quotedLength_free (fun c hc => (hplain c hc).2) (by omega)]
    congr 2
    omega

theorem Lexeme.content_print (x : Lexeme) : content x.print = x.value := by
  cases x with
  | atom s hne halpha =>
    cases s with
    | nil => exact absurd rfl hne
    | cons c s =>
      have hquote := not_isQuote_of_isAlpha (halpha c mem_cons_self)
      have hatom : unescape (c :: s ++ []) (c :: s).length = .ok (c :: s) := unescape_atom halpha
      rw [append_nil] at hatom
      have hunquote : unquote ⟨c :: s, (c :: s).length⟩ = .ok ⟨c :: s, (c :: s).length⟩ := by
        simp [unquote, hquote]
      rw [Lexeme.print, content, hunquote, ok_bind, hatom]
      rfl
  | quoted s hplain => exact content_quoted (unescape_free fun c hc => (hplain c hc).2.1)

section
variable {d : Doc}

theorem treeMembers_eq :
    ∀ members, treeMembers members = members.map fun f =>
    ⟨[], some ⟨f.name.print, [], []⟩, f.value.tree, []⟩ :=
  eq_map rfl fun ⟨_, _⟩ _ => rfl

theorem treeValues_eq : ∀ values, treeValues values = values.map fun d => ⟨[], none, d.tree, []⟩ :=
  eq_map rfl fun _ _ => rfl

theorem printMembers_eq : ∀ members, printMembers members = members.map fun f =>
    f.name.print ++ 58 :: f.value.print :=
  eq_map rfl fun ⟨_, _⟩ _ => rfl

theorem printValues_eq : ∀ values, printValues values = values.map Doc.print :=
  eq_map rfl fun _ _ => rfl

theorem jsonMembers_eq : ∀ members, jsonMembers members = members.map fun f =>
    (f.name.value, f.value.json) :=
  eq_map rfl fun ⟨_, _⟩ _ => rfl

theorem jsonValues_eq : ∀ values, jsonValues values = values.map Doc.json :=
  eq_map rfl fun _ _ => rfl

theorem Doc.Small.valid (h : d.Small) : d.tree.Valid := by
  induction h with
  | leaf s => exact .unit s.isUnit
  | @object members _ _ ih =>
    rw [Doc.tree, treeMembers_eq]
    refine .node blank_nil ?_ ?_
    · intro p hp
      obtain ⟨f, -, rfl⟩ := mem_map.1 hp
      exact ⟨blank_nil, blank_nil, f.name.isUnit, blank_nil, blank_nil⟩
    · intro p hp
      obtain ⟨f, hf, rfl⟩ := mem_map.1 hp
      exact ih f hf
  | @array values _ _ ih =>
    rw [Doc.tree, treeValues_eq]
    refine .node blank_nil ?_ ?_
    · intro p hp
      obtain ⟨d, -, rfl⟩ := mem_map.1 hp
      exact ⟨blank_nil, blank_nil, trivial⟩
    · intro p hp
      obtain ⟨d, hd, rfl⟩ := mem_map.1 hp
      exact ih d hd

theorem Doc.Small.text (h : d.Small) : d.tree.text = d.print := by
  induction h with
  | leaf s => rw [Doc.tree, Tree.text, Doc.print]
  | @object members _ _ ih =>
    have hmembers : partsTexts (treeMembers members) = printMembers members := by
      rw [partsTexts_eq, treeMembers_eq, printMembers_eq, map_map]
      refine map_congr_left fun f hf => ?_
      simp [Part.text, ih f hf, labelText, Label.text]
    rw [Doc.tree, Tree.text, hmembers, Doc.print]
    rfl
  | @array values _ _ ih =>
    have hvalues : partsTexts (treeValues values) = printValues values := by
      rw [partsTexts_eq, treeValues_eq, printValues_eq, map_map]
      refine map_congr_left fun d hd => ?_
      simp [Part.text, ih d hd, labelText]
    rw [Doc.tree, Tree.text, hvalues, Doc.print]
    rfl

theorem Doc.Small.json_eq (h : d.Small) : d.tree.json = d.json := by
  induction h with
  | leaf s => rw [Doc.tree, Tree.json, Doc.json, s.content_print]
  | @object members hcount hvalues ih =>
    have hmembers : partsMembers (treeMembers members) = jsonMembers members := by
      rw [partsMembers_eq, treeMembers_eq, jsonMembers_eq, map_map]
      refine map_congr_left fun f hf => ?_
      simp [Part.member, ih f hf, labelContent, f.name.content_print]
    have htake : (jsonMembers members).take cap = jsonMembers members :=
      take_of_length_le (by rw [jsonMembers_eq, length_map]; exact hcount)
    have hvalid := (Doc.Small.object hcount hvalues).valid
    rw [Doc.tree] at hvalid ⊢
    cases members with
    | nil =>
      have hshort : Tree.isShort .object (.node .object [] (treeMembers [])) = true := by decide
      rw [Tree.json, if_pos hshort, Doc.json]
      rfl
    | cons f members =>
      have hshort : Tree.isShort .object (.node .object [] (treeMembers (f :: members))) = false :=
        hvalid.not_short
      rw [Tree.json, hshort, if_neg Bool.false_ne_true, hmembers, htake, Doc.json]
      rfl
  | @array values hcount hvalues ih =>
    have hjson : (partsMembers (treeValues values)).map Prod.snd = jsonValues values := by
      rw [partsMembers_eq, treeValues_eq, jsonValues_eq, map_map, map_map]
      refine map_congr_left fun d hd => ?_
      simp [Part.member, ih d hd]
    have hvalid := (Doc.Small.array hcount hvalues).valid
    have hshort : Tree.isShort .array (.node .array [] (treeValues values)) = false := by
      rw [Doc.tree] at hvalid
      cases values with
      | nil => decide
      | cons d values => exact hvalid.not_short
    have htake : ((partsMembers (treeValues values)).map Prod.snd).take cap =
      jsonValues values := by
      rw [hjson, take_of_length_le (by rw [jsonValues_eq, length_map]; exact hcount)]
    rw [Doc.tree, Tree.json, hshort, if_neg Bool.false_ne_true, Doc.json, ← htake, ← map_take]
    rfl

end

def Doc.isContainer : Doc → Bool
  | .leaf _ => false
  | .object _ => true
  | .array _ => true

def Doc.bufferSize (d : Doc) : Nat := d.tree.need + jsonSize + 1

/-- The decoder inverts compact printing: with a large enough buffer it returns the value that
was printed. -/
theorem decode_print {malloc : Nat → Bool} (hmalloc : ∀ n, malloc n = true) {d : Doc}
    (hsmall : d.Small)
    (hroot : d.isContainer = true) {size : Int} (hsize : d.bufferSize ≤ size)
    (hint : size < 2 ^ 31) : swJsonDecode malloc d.print size = .ok d.json := by
  rw [Doc.bufferSize] at hsize
  rw [← hsmall.text, ← hsmall.json_eq, ← nil_append d.tree.text, ← append_nil d.tree.text]
  have hvalid := hsmall.valid
  cases d with
  | leaf s => cases hroot
  | object members | array values =>
    exact swJsonDecode_node hmalloc blank_nil hvalid (.inl rfl) (by rw [← Doc.tree]; omega) hint

/-- An object with a string that holds brackets, in an array beside an empty object. -/
theorem decode_print_nested : ∃ d : Doc, d.print = [123, 97, 58, 91, 34, 93, 44, 34, 44, 123, 125,
      93, 125] ∧ swJsonDecode (fun _ => true) d.print 61 =
        .ok (.obj (some [([97], .arr (some [.str [93, 44], .obj none]))])) := by
  have hatom : ∀ c ∈ ([97] : Bytes), isAlpha c = true := by simp [isAlpha]
  have hplain : ∀ c ∈ ([93, 44] : Bytes), c ≠ 0 ∧ c ≠ 92 ∧ c ≠ 34 := by simp
  let d : Doc :=
    .object [⟨.atom [97] (by decide) hatom, .array [.leaf (.quoted [93, 44] hplain), .object []]⟩]
  have hsmall : d.Small := by
    refine .object (by simp) ?_
    simp only [mem_singleton, forall_eq]
    refine .array (by simp) ?_
    simp only [mem_cons, not_mem_nil, or_false, forall_eq_or_imp, forall_eq]
    exact ⟨.leaf _, .object (by simp) (by simp)⟩
  have hsize : d.bufferSize = 61 := by
    clear hsmall
    subst d
    decide +revert +kernel
  exact ⟨d, rfl, decode_print (fun _ => rfl) hsmall rfl (by rw [hsize]; decide) (by decide)⟩

end SwApi.Json
