import SwApi.Json.Decoding

/-! Which of the texts that the decoder accepts are texts of the grammar. -/
namespace SwApi.Json
open Library List

structure Moves (c : Cursor) (b : Bytes) (c' : Cursor) : Prop where
  p : c.p = b ++ c'.p
  left : c.left = b.length + c'.left

def Cursor.text (c : Cursor) : Bytes := c.p.take c.left

theorem Moves.trans (h : Moves c b c') (h' : Moves c' b' c'') : Moves c (b ++ b') c'' where
  p := by rw [h.p, h'.p, append_assoc]
  left := by rw [h.left, h'.left, length_append, Nat.add_assoc]

theorem Moves.text (h : Moves c b c') : c.text = b ++ c'.text := by
  rw [Cursor.text, h.p, h.left, take_append, take_of_length_le (by omega), Nat.add_sub_cancel_left,
    Cursor.text]

theorem Moves.advance (hleft : n ≤ c.left) (hlen : n ≤ c.p.length) :
    Moves c (c.p.take n) (c.advance n) where
  p := (take_append_drop n c.p).symm
  left := by
    have hrest : (c.advance n).left = c.left - n := rfl
    rw [length_take, Nat.min_eq_left hlen]
    omega

def Settled (sep : UInt8 → Bool) (c : Cursor) : Prop :=
  c.left = 0 ∨ ∃ ch tail, c.p = ch :: tail ∧ isBlank ch = false ∧ sep ch = false

theorem Moves.cons {ch : UInt8} {p : Bytes} {left : Nat} (h : Moves ⟨p, left⟩ b c') :
    Moves ⟨ch :: p, left + 1⟩ (ch :: b) c' where
  p := congrArg (ch :: ·) h.p
  left := by
    have hleft : left = b.length + c'.left := h.left
    dsimp only
    rw [length_cons]
    omega

theorem blank_cons (hch : isBlank ch = true) (hb : Blank b) : Blank (ch :: b) :=
  forall_mem_cons.2 ⟨hch, hb⟩

theorem skip_inv {p : Bytes} {left i j : Nat} (h : skip sep p left i = .ok (j, c')) :
    i ≤ j ∧ Settled sep c' ∧ ∃ b, Moves ⟨p, left⟩ b c' ∧ (j = i → Blank b) ∧
      (j = i + 1 → ∃ w ch w', b = w ++ ch :: w' ∧ Blank w ∧ Blank w' ∧ sep ch = true) := by
  fun_induction skip sep p left i with
  | case1 p i =>
    cases h
    exact ⟨le_rfl, .inl rfl, [], ⟨rfl, rfl⟩, fun _ => blank_nil, by omega⟩
  | case2 => cases h
  | case3 ch p left i hblank ih =>
    obtain ⟨hle, hsettled, b, hmoves, hnone, hone⟩ := ih h
    refine ⟨hle, hsettled, ch :: b, hmoves.cons, fun hj => blank_cons hblank (hnone hj), ?_⟩
    intro hj
    obtain ⟨w, d, w', rfl, hw, hw', hd⟩ := hone hj
    exact ⟨ch :: w, d, w', rfl, blank_cons hblank hw, hw', hd⟩
  | case4 ch p left i hblank hsep ih =>
    obtain ⟨hle, hsettled, b, hmoves, hnone, -⟩ := ih h
    refine ⟨by omega, hsettled, ch :: b, hmoves.cons, by omega, ?_⟩
    intro hj
    exact ⟨[], ch, b, rfl, blank_nil, hnone hj, hsep⟩
  | case5 ch p left i hblank hsep =>
    cases h
    refine ⟨le_rfl, .inr ⟨ch, p, rfl, by simpa using hblank, by simpa using hsep⟩, [], ⟨rfl, ?_⟩,
      fun _ => blank_nil, by omega⟩
    simp

theorem skip_blank_inv (h : skip (fun _ => false) p left i = .ok (j, c')) :
    ∃ b, Blank b ∧ Moves ⟨p, left⟩ b c' := by
  have hcount : j = i := by
    fun_induction skip (fun _ => false) p left i with
    | case1 | case5 =>
      cases h
      rfl
    | case2 => cases h
    | case3 ch p left i hblank ih => exact ih h
    | case4 ch p left i hblank hsep => cases hsep
  obtain ⟨-, -, b, hmoves, hblank, -⟩ := skip_inv h
  exact ⟨b, hblank hcount, hmoves⟩

theorem skip_settled (h : Settled sep c) : skip (fun _ => false) c.p c.left i = .ok (i, c) := by
  obtain ⟨p, left⟩ := c
  rcases h with hzero | ⟨ch, tail, hp, hblank, -⟩
  · cases hzero
    rw [skip]
  · cases hp
    exact skip_stop hblank rfl

/-- A value that is taken: the cursor has moved over its bytes, and it is a unit if it does
not begin with a bracket. -/
structure Taken (c : Cursor) (v : Slice) (c' : Cursor) : Prop where
  str : v.str = c.p
  moves : Moves c (v.str.take v.len) c'
  len : v.len ≤ v.str.length
  pos : 0 < v.len
  unit : v.str.head? ≠ some 123 → v.str.head? ≠ some 91 → IsUnit (v.str.take v.len)

def TakenPart (k : Kind) (c : Cursor) (v : Slice) (c' : Cursor) : Prop :=
  ∃ label c₁, Fits k label ∧ Moves c (labelText label) c₁ ∧ Taken c₁ v c'

inductive Listed (k : Kind) : Cursor → List Slice → Cursor → Prop where
  | last {c v c'} (h : TakenPart k c v c') : Listed k c [v] c'
  | cons {c v c₁ w ch w' c₂ vs c'} (h : TakenPart k c v c₁)
      (hsep : Moves c₁ (w ++ ch :: w') c₂) (hw : Blank w) (hch : ch = 44) (hw' : Blank w')
      (hrest : Listed k c₂ vs c') : Listed k c (v :: vs) c'

theorem jsonLengthLoop_le (h : jsonLengthLoop ch th fuel c depth k = .ok n)
    (hn : 0 < n) : k < n.toNat ∧ n.toNat - k ≤ c.left ∧ n.toNat - k ≤ c.p.length := by
  induction fuel generalizing c depth k with
  | zero =>
    cases h
    omega
  | succ fuel ih =>
    have hstep (d : Nat) {m : Nat} (hm : 0 < m) (hleft : m ≤ c.left ∨ c.left = m - 1)
        (h : jsonLengthLoop ch th fuel (c.advance m) d (k + m) = .ok n) :
        k < n.toNat ∧ n.toNat - k ≤ c.left ∧ n.toNat - k ≤ c.p.length := by
      obtain ⟨hk, hl, hp⟩ := ih h
      simp only [Cursor.advance, length_drop] at hl hp
      omega
    rw [jsonLengthLoop] at h
    split at h
    · cases h
      omega
    · rename_i hleft
      obtain ⟨b, hb, h⟩ := bind_eq_ok.1 h
      split at h
      · obtain ⟨e, -, h⟩ := bind_eq_ok.1 h
        split at h <;> exact hstep depth (by omega) (by omega) h
      · split at h
        · obtain ⟨vlen, hvlen, h⟩ := bind_eq_ok.1 h
          split at h
          · cases h
            omega
          · rename_i hpos
            obtain ⟨-, hle, -⟩ := isUnit_take hvlen (by omega)
            exact hstep depth (by omega) (.inl hle) h
        · split at h
          · exact hstep _ (by omega) (by omega) h
          · split at h
            · split at h
              · cases h
                have hne : c.p ≠ [] := by
                  intro hnil
                  rw [Cursor.first, hnil] at hb
                  cases hb
                have := length_pos_iff.2 hne
                omega
              · exact hstep _ (by omega) (by omega) h
            · exact hstep _ (by omega) (by omega) h

theorem valueLength_inv (h : valueLength c = .ok n) (hn : 0 < n) : n.toNat ≤ c.left ∧
    n.toNat ≤ c.p.length ∧
      (c.p.head? ≠ some 123 → c.p.head? ≠ some 91 → IsUnit (c.p.take n.toNat)) := by
  obtain ⟨p, left⟩ := c
  cases p with
  | nil => cases h
  | cons ch p =>
    by_cases hbracket : ch = 91 ∨ ch = 123
    · have hjson : getJsonLength ⟨ch :: p, left⟩ = .ok n := by
        simpa [valueLength, Cursor.first, hbracket] using h
      have hloop : ∃ th, jsonLengthLoop ch th left (Cursor.advance ⟨ch :: p, left⟩ 1) 0 1 =
        .ok n := by
        rcases hbracket with rfl | rfl
        · exact ⟨93, hjson⟩
        · exact ⟨125, hjson⟩
      obtain ⟨th, hloop⟩ := hloop
      obtain ⟨hpos, hleft, hlen⟩ := jsonLengthLoop_le hloop hn
      simp only [Cursor.advance, length_drop, length_cons] at hleft hlen ⊢
      refine ⟨by omega, by omega, fun h₁ h₂ => ?_⟩
      rcases hbracket with rfl | rfl
      · exact absurd rfl h₂
      · exact absurd rfl h₁
    · have hstring : getStringLength ⟨ch :: p, left⟩ = .ok n := by
        simpa [valueLength, Cursor.first, hbracket] using h
      obtain ⟨hunit, hleft, hlen⟩ := isUnit_take hstring hn
      exact ⟨hleft, hlen, fun _ _ => hunit⟩

theorem piece_inv {length : Cursor → Attempt Int} (h : piece length c = .ok (v, c')) :
    ∃ n, length c = .ok n ∧ 0 < n ∧ v = ⟨c.p, n.toNat⟩ ∧ c' = c.advance n.toNat := by
  obtain ⟨n, hn, h⟩ := bind_eq_ok.1 h
  split at h
  · cases h
  · rename_i hpos
    cases h
    exact ⟨n, hn, by omega, rfl, rfl⟩

theorem piece_taken (h : piece valueLength c = .ok (v, c')) : Taken c v c' := by
  obtain ⟨n, hlength, hn, rfl, rfl⟩ := piece_inv h
  obtain ⟨hleft, hlen, hunit⟩ := valueLength_inv hlength hn
  exact ⟨rfl, .advance hleft hlen, hlen, by dsimp only; omega, hunit⟩

theorem namedValue_takenPart (h : namedValue c = .ok (nv, c')) : TakenPart .object c nv.2 c' := by
  obtain ⟨⟨name, c₁⟩, hname, h⟩ := bind_eq_ok.1 h
  obtain ⟨⟨i, c₂⟩, hskip, h⟩ := bind_eq_ok.1 h
  dsimp only at hskip h
  split at h
  · cases h
  · rename_i hi
    obtain ⟨⟨value, c₃⟩, hvalue, h⟩ := bind_eq_ok.1 h
    cases h
    obtain ⟨n, hlength, hn, rfl, rfl⟩ := piece_inv hname
    obtain ⟨hunit, hleft, hlen⟩ := isUnit_take hlength hn
    obtain ⟨-, -, b, hmoves, -, hone⟩ := skip_inv hskip
    obtain ⟨w, ch, w', rfl, hw, hw', hch⟩ := hone (by omega)
    cases (beq_iff_eq.1 hch : ch = 58)
    refine ⟨some ⟨c.p.take n.toNat, w, w'⟩, c₂, ⟨hunit, hw, hw'⟩, ?_, piece_taken hvalue⟩
    exact (Moves.advance hleft hlen).trans hmoves

theorem split_at_close (hsettled : Settled (· == 44) c) (hfirst : c.first = .ok close)
    (h : split close element maxcount fuel c nv = .ok (nv', c')) : nv' = nv := by
  cases fuel with
  | zero =>
    cases h
    rfl
  | succ fuel =>
    rw [split] at h
    split at h
    · cases h
      rfl
    · rw [skip_settled hsettled, ok_bind] at h
      simp only [hfirst, ok_bind, if_true] at h
      cases h
      rfl

theorem split_listed (value : α → Slice)
    (helement : ∀ c a c', element c = .ok (a, c') → TakenPart k c (value a) c')
    (h : split k.closing element maxcount fuel c nv = .ok (nv', c')) :
    ∃ new, nv' = nv ++ new ∧ (new = [] ∨ ∃ b c₁ c₂, Blank b ∧ Moves c b c₁ ∧
    Listed k c₁ (new.map value) c₂) := by
  induction fuel generalizing c nv with
  | zero =>
    cases h
    exact ⟨[], by simp, .inl rfl⟩
  | succ fuel ih =>
    rw [split] at h
    split at h
    · cases h
      exact ⟨[], by simp, .inl rfl⟩
    · obtain ⟨⟨i, c₁⟩, hskip, h⟩ := bind_eq_ok.1 h
      obtain ⟨ch, -, h⟩ := bind_eq_ok.1 h
      dsimp only at h
      split at h
      · cases h
        exact ⟨[], by simp, .inl rfl⟩
      · obtain ⟨⟨a, c₂⟩, htake, h⟩ := bind_eq_ok.1 h
        dsimp only at h
        have hpart := helement _ _ _ htake
        obtain ⟨b, hb, hmoves⟩ := skip_blank_inv hskip
        split at h
        · cases h
          exact ⟨[a], rfl, .inr ⟨b, c₁, c', hb, hmoves, .last hpart⟩⟩
        · obtain ⟨⟨j, c₃⟩, hcomma, h⟩ := bind_eq_ok.1 h
          obtain ⟨ch', hch', h⟩ := bind_eq_ok.1 h
          obtain ⟨-, hsettled, b', hmoves', -, hone⟩ := skip_inv hcomma
          dsimp only at hch' h
          split at h
          · cases h
          · rename_i hcount
            -- Without the one comma the next byte is the bracket, and `a` is the last element.
            by_cases hj : j = 1
            · obtain ⟨new, rfl, hnew⟩ := ih h
              refine ⟨a :: new, by simp, .inr ⟨b, c₁, ?_⟩⟩
              rcases hnew with rfl | ⟨b₁, c₄, c₅, hb₁, hmoves₁, hlisted⟩
              · exact ⟨c₂, hb, hmoves, .last hpart⟩
              · obtain ⟨w, d, w', rfl, hw, hw', hd⟩ := hone hj
                have hsep : Moves c₂ (w ++ d :: (w' ++ b₁)) c₄ := by
                  simpa using hmoves'.trans hmoves₁
                exact ⟨c₅, hb, hmoves, .cons hpart hsep hw (by simpa using hd)
                  (forall_mem_append.2 ⟨hw', hb₁⟩) hlisted⟩
            · have hclose : ch' = k.closing := by
                by_contra hne
                exact hcount ⟨hj, hne⟩
              rw [hclose] at hch'
              exact ⟨[a], split_at_close hsettled hch' h, .inr ⟨b, c₁, c₂, hb, hmoves, .last hpart⟩⟩

theorem Listed.taken (h : Listed k c vs c') (hv : v ∈ vs) : ∃ c₁ c₂, Taken c₁ v c₂ := by
  induction h with
  | last h =>
    obtain ⟨-, c₁, -, -, htaken⟩ := h
    cases mem_singleton.1 hv
    exact ⟨c₁, _, htaken⟩
  | cons h _ _ _ _ _ ih =>
    rcases mem_cons.1 hv with rfl | hv
    · obtain ⟨-, c₁, -, -, htaken⟩ := h
      exact ⟨c₁, _, htaken⟩
    · exact ih hv

theorem TakenPart.moves (h : TakenPart k c v c') : ∃ b, Moves c b c' := by
  obtain ⟨label, c₁, -, hlabel, htaken⟩ := h
  exact ⟨_, hlabel.trans htaken.moves⟩

theorem Listed.moves (h : Listed k c vs c') : ∃ b, Moves c b c' := by
  induction h with
  | last h => exact h.moves
  | cons h hsep _ _ _ _ ih =>
    obtain ⟨b, hfirst⟩ := h.moves
    obtain ⟨b', hrest⟩ := ih
    exact ⟨_, (hfirst.trans hsep).trans hrest⟩

theorem Taken.drop (h : Taken c v c') : v.str.drop v.len = c'.p := by
  have hp := h.moves.p
  rw [← h.str] at hp
  exact append_cancel_left ((take_append_drop v.len v.str).trans hp)

theorem Listed.getLast (h : Listed k c vs c') : ∃ v, vs.getLast? = some v ∧
    v.str.drop v.len = c'.p := by
  induction h with
  | last h =>
    obtain ⟨-, c₁, -, -, htaken⟩ := h
    exact ⟨_, rfl, htaken.drop⟩
  | @cons c v c₁ w ch w' c₂ vs c' h _ _ _ _ _ ih =>
    obtain ⟨v', hlast, hdrop⟩ := ih
    refine ⟨v', ?_, hdrop⟩
    rw [getLast?_cons, hlast]
    rfl

theorem Listed.parts (h : Listed k c vs c')
    (hvalues : ∀ v ∈ vs, ∃ tree : Tree, tree.Valid ∧ v.str.take v.len = tree.text) (hw : Blank w)
    (hmore : ∀ p ∈ more, p.Laid k ∧ p.value.Valid)
    (hrest : c'.text = w ++ tailText k.closing trail more) :
    ∃ p parts, (∀ q ∈ p :: parts, q.Laid k ∧ q.value.Valid) ∧ p.before = [] ∧
      c.text = p.core ++ (p.behind ++ tailText k.closing trail parts) := by
  -- The element at the front, with the blanks `b` behind it.
  have hfront {c v c'} (h : TakenPart k c v c') {b : Bytes} (hb : Blank b)
      (hv : ∃ tree : Tree, tree.Valid ∧ v.str.take v.len = tree.text) :
      ∃ p : Part Tree, p.Laid k ∧ p.value.Valid ∧ p.before = [] ∧ p.behind = b ∧
        c.text = p.core ++ c'.text := by
    obtain ⟨label, c₁, hfits, hlabel, htaken⟩ := h
    obtain ⟨tree, hvalid, htext⟩ := hv
    refine ⟨⟨[], label, tree, b⟩, ⟨blank_nil, hb, hfits⟩, hvalid, rfl, rfl, ?_⟩
    rw [hlabel.text, htaken.moves.text, htext, Part.core, append_assoc]
  induction h with
  | @last c v c' h =>
    obtain ⟨p, hlaid, hvalid, hbefore, rfl, htext⟩ := hfront h hw (hvalues v mem_cons_self)
    exact ⟨p, more, forall_mem_cons.2 ⟨⟨hlaid, hvalid⟩, hmore⟩, hbefore, by rw [htext, hrest]⟩
  | @cons c v c₁ wa ch wb c₂ vs c' h hsep hwa hch hwb hrest' ih =>
    obtain ⟨q, parts, hparts, hbefore, htext⟩ := ih (forall_mem_cons.1 hvalues).2 hrest
    obtain ⟨p, hlaid, hvalid, hbefore', rfl, htext'⟩ := hfront h hwa (hvalues v mem_cons_self)
    obtain ⟨⟨hlaid', hvalid'⟩, hparts⟩ := forall_mem_cons.1 hparts
    refine ⟨p, { q with before := wb } :: parts, ?_, hbefore', ?_⟩
    · simp only [forall_mem_cons]
      exact ⟨⟨hlaid, hvalid⟩, ⟨⟨hwb, hlaid'.behind, hlaid'.label⟩, hvalid'⟩, hparts⟩
    · rw [htext', hsep.text, htext, hch, tailText]
      simp [Part.core]

def cut (k : Kind) (s : Slice) : Attempt (List Slice) :=
  let maxcount := min 16384 (s.len / k.least)
  if maxcount = 0 then .ok []
  else match k with
    | .object => do
        let nv ← elements 125 namedValue maxcount s
        .ok (nv.map Prod.snd)
    | .array => elements 93 (piece valueLength) maxcount s

def unread (s : Slice) (kept : List Slice) : Bytes :=
  let p := match kept.getLast? with
    | none => s.str.drop 1
    | some v => v.str.drop v.len
  p.take (p.length - (s.str.length - s.len))

/-- What the grammar allows there: the closing bracket, or further elements and the bracket. Only
blanks may come behind the outermost container, and nothing behind the others. -/
def Closes (k : Kind) (root : Bool) (kept : List Slice) (u : Bytes) : Prop :=
  ∃ (w : Bytes) (parts : List (Part Tree)) (trail : Bytes), Blank w ∧
    (∀ p ∈ parts, p.Laid k ∧ p.value.Valid) ∧ (kept = [] → parts = []) ∧ Blank trail ∧
    (root = false → trail = []) ∧ u = w ++ tailText k.closing trail parts

def Tidy (root : Bool) : Nat → Slice → Prop
  | 0, _ => True
  | fuel+1, s =>
      ∀ k : Kind, s.str.head? = some k.opening → ∀ kept, cut k s = .ok kept →
        Closes k root kept (unread s kept) ∧ ∀ v ∈ kept, Tidy false fuel v

def TidyText (text : Bytes) : Prop :=
  ∀ i c, skip (fun _ => false) (text ++ [0]) text.length 0 = .ok (i, c) →
    Tidy true (text.length + 1) ⟨c.p, c.left⟩

section
variable {k : Kind}

theorem decodeAll_inv (h : decodeAll decode xs m = .ok r) : ∀ x ∈ xs, ∃ m r,
    decode x m = .ok r := by
  induction xs generalizing m r with
  | nil => exact forall_mem_nil _
  | cons y xs ih =>
    obtain ⟨⟨b, m₁⟩, hy, h⟩ := bind_eq_ok.1 h
    obtain ⟨⟨bs, m₂⟩, hxs, -⟩ := bind_eq_ok.1 h
    exact forall_mem_cons.2 ⟨⟨m, _, hy⟩, ih hxs⟩

theorem decodeContainer_inv (h : decodeContainer malloc close least header cell element decode s m =
    .ok r) : min 16384 (s.len / least) = 0 ∨ min 16384 (s.len / least) ≠ 0 ∧
      ∃ nv, elements close element (min 16384 (s.len / least)) s = .ok nv ∧
        ∀ a ∈ nv, ∃ m r, decode a m = .ok r := by
  unfold decodeContainer at h
  dsimp only at h
  split at h
  · rename_i hzero
    exact .inl hzero
  · rename_i hzero
    obtain ⟨m₁, -, h⟩ := bind_eq_ok.1 h
    obtain ⟨nv, hnv, h⟩ := bind_eq_ok.1 h
    obtain ⟨m₂, -, h⟩ := bind_eq_ok.1 h
    obtain ⟨m₃, -, h⟩ := bind_eq_ok.1 h
    obtain ⟨r', hall, -⟩ := bind_eq_ok.1 h
    exact .inr ⟨hzero, nv, hnv, decodeAll_inv hall⟩

theorem decodeValue_cut (hk : s.str.head? = some k.opening)
    (h : decodeValue malloc (fuel + 1) s m = .ok r) :
    ∃ kept, cut k s = .ok kept ∧ ∀ v ∈ kept, ∃ m r, decodeValue malloc fuel v m = .ok r := by
  cases k with
  | object =>
    rw [decodeValue_object hk] at h
    obtain ⟨r', h, -⟩ := bind_eq_ok.1 h
    rcases decodeContainer_inv h with hzero | ⟨hne, nv, hnv, hall⟩
    · exact ⟨[], if_pos hzero, by simp⟩
    · refine ⟨nv.map Prod.snd, ?_, ?_⟩
      · rw [cut, Kind.least, if_neg hne, hnv]
        rfl
      · intro v hv
        obtain ⟨a, ha, rfl⟩ := mem_map.1 hv
        obtain ⟨m₁, r₁, h₁⟩ := hall a ha
        obtain ⟨⟨name, m₂⟩, -, h₁⟩ := bind_eq_ok.1 h₁
        obtain ⟨r₂, hvalue, -⟩ := bind_eq_ok.1 h₁
        exact ⟨_, _, hvalue⟩
  | array =>
    rw [decodeValue_array hk] at h
    obtain ⟨r', h, -⟩ := bind_eq_ok.1 h
    rcases decodeContainer_inv h with hzero | ⟨hne, nv, hnv, hall⟩
    · exact ⟨[], if_pos hzero, by simp⟩
    · exact ⟨nv, by rw [cut, Kind.least, if_neg hne, hnv], hall⟩

theorem cut_listed {kept : List Slice} (h : cut k s = .ok kept) :
    kept = [] ∨ ∃ b c₁ c₂, Blank b ∧ Moves ⟨s.str.drop 1, s.len - 1⟩ b c₁ ∧
    Listed k c₁ kept c₂ := by
  unfold cut at h
  dsimp only at h
  split at h
  · cases h
    exact .inl rfl
  · cases k with
    | object =>
      obtain ⟨nv, hnv, h⟩ := bind_eq_ok.1 h
      obtain ⟨⟨nv', c⟩, hsplit, hnv⟩ := bind_eq_ok.1 hnv
      cases h
      cases hnv
      obtain ⟨new, hnew, hlisted⟩ :=
        split_listed (k := .object) Prod.snd (fun _ _ _ => namedValue_takenPart) hsplit
      rw [nil_append] at hnew
      subst hnew
      exact hlisted.imp_left (congrArg (map Prod.snd))
    | array =>
      obtain ⟨⟨nv', c⟩, hsplit, hnv⟩ := bind_eq_ok.1 h
      cases hnv
      obtain ⟨new, hnew, hlisted⟩ :=
        split_listed (k := .array) id (fun c _ _ h => ⟨none, c, trivial, ⟨rfl, by simp [labelText]⟩,
          piece_taken h⟩) hsplit
      rw [nil_append] at hnew
      subst hnew
      rw [map_id] at hlisted
      exact hlisted

theorem Kind.opening_inj (h : k.opening = k'.opening) : k = k' := by
  cases k <;> cases k' <;> first | rfl | cases h

/-- A value that is decoded and whose containers are tidy is a tree of the grammar. -/
theorem Tidy.tree (h : decodeValue malloc fuel s m = .ok r)
    (htidy : Tidy root fuel s) (hlen : s.len ≤ s.str.length) (hpos : 0 < s.len)
    (hunit : s.str.head? ≠ some 123 → s.str.head? ≠ some 91 → IsUnit (s.str.take s.len)) :
    ∃ (tree : Tree) (trail : Bytes), tree.Valid ∧ Blank trail ∧ (root = false → trail = []) ∧
      s.str.take s.len = tree.text ++ trail ∧
      (∀ k : Kind, s.str.head? = some k.opening → tree.isNode = true) := by
  induction fuel generalizing root s m r with
  | zero => cases h
  | succ fuel ih =>
    by_cases hbracket : ∃ k : Kind, s.str.head? = some k.opening
    · obtain ⟨k, hk⟩ := hbracket
      obtain ⟨kept, hcut, hdecoded⟩ := decodeValue_cut hk h
      obtain ⟨⟨w, parts, trail, hw, hparts, hnone, htrail, hroot, hunread⟩, hvalues⟩ :=
        htidy k hk kept hcut
      obtain ⟨p, hp⟩ := head?_eq_some_iff.1 hk
      have hstart : s.str.take s.len = k.opening :: Cursor.text ⟨s.str.drop 1, s.len - 1⟩ := by
        obtain ⟨l, hl⟩ : ∃ l, s.len = l + 1 := ⟨s.len - 1, by omega⟩
        rw [hp, hl]
        rfl
      have hrest {b : Bytes} {c : Cursor} (hmoves : Moves ⟨s.str.drop 1, s.len - 1⟩ b c) :
          c.p.take (c.p.length - (s.str.length - s.len)) = c.text := by
        have hlength := congrArg length hmoves.p
        have hleft := hmoves.left
        simp only [length_drop, length_append] at hlength hleft
        rw [Cursor.text]
        congr 1
        omega
      rcases cut_listed hcut with rfl | ⟨b, c₁, c₂, hb, hmoves, hlisted⟩
      · -- Nothing is kept: the bracket is closed at once.
        cases hnone rfl
        have hself : Moves ⟨s.str.drop 1, s.len - 1⟩ [] ⟨s.str.drop 1, s.len - 1⟩ := ⟨rfl, by simp⟩
        have htext : Cursor.text ⟨s.str.drop 1, s.len - 1⟩ = w ++ k.closing :: trail :=
          (hrest hself).symm.trans hunread
        refine ⟨.node k w [], trail, .node hw (by simp) (by simp), htrail, hroot, ?_,
          fun _ _ => rfl⟩
        rw [hstart, htext, Tree.text]
        simp [partsTexts, intercalate]
      · obtain ⟨v, hlast, hdrop⟩ := hlisted.getLast
        obtain ⟨b', hmoves'⟩ := hlisted.moves
        have htext : c₂.text = w ++ tailText k.closing trail parts := by
          rw [← hunread, unread, hlast]
          dsimp only
          rw [hdrop, hrest (hmoves.trans hmoves')]
        have htrees : ∀ v ∈ kept, ∃ tree : Tree, tree.Valid ∧ v.str.take v.len = tree.text := by
          intro v hv
          obtain ⟨m', r', hv'⟩ := hdecoded v hv
          obtain ⟨c₃, c₄, htaken⟩ := hlisted.taken hv
          obtain ⟨tree, trail', hvalid, -, hend, htext, -⟩ :=
            ih hv' (hvalues v hv) htaken.len htaken.pos htaken.unit
          rw [hend rfl, append_nil] at htext
          exact ⟨tree, hvalid, htext⟩
        obtain ⟨p, parts', hparts', hbefore, htext'⟩ := hlisted.parts htrees hw hparts htext
        refine ⟨.node k b (p :: parts'), trail, .node hb (fun q hq => (hparts' q hq).1) fun q hq =>
          (hparts' q hq).2, htrail, hroot, ?_, fun _ _ => rfl⟩
        rw [hstart, hmoves.text, htext', node_text, hbefore]
        rfl
    · have hunit := hunit (fun h => hbracket ⟨.object, h⟩) fun h => hbracket ⟨.array, h⟩
      exact ⟨.unit (s.str.take s.len), [], .unit hunit, blank_nil,
        fun _ => rfl, by rw [Tree.text, append_nil], fun k hk => absurd ⟨k, hk⟩ hbracket⟩

theorem tailText_append : tailText close (trail ++ rest) parts = tailText close trail parts ++
    rest := by
  induction parts with
  | nil => rfl
  | cons q qs ih => simp [tailText, ih]

theorem placed_last (close : UInt8) (rest : Bytes) (p : Part Tree) (parts : List (Part Tree))
    (hn : 0 < n) : ∃ q more, q ∈ p :: parts ∧ (∀ x ∈ more, x ∈ p :: parts) ∧
      ((placed close rest (p :: parts)).take n).getLast? =
      some (q, q.behind ++ tailText close rest more) := by
  induction parts generalizing p n with
  | nil =>
    obtain ⟨l, rfl⟩ : ∃ l, n = l + 1 := ⟨n - 1, by omega⟩
    exact ⟨p, [], mem_cons_self, by simp, by simp [placed]⟩
  | cons p' parts ih =>
    obtain ⟨l, rfl⟩ : ∃ l, n = l + 1 := ⟨n - 1, by omega⟩
    rw [placed, take_succ_cons]
    cases l with
    | zero =>
      exact ⟨p, p' :: parts, mem_cons_self, fun x hx => mem_cons_of_mem _ hx, by simp⟩
    | succ l =>
      obtain ⟨q, more, hq, hmore, hlast⟩ := ih p' (show 0 < l + 1 by omega)
      refine ⟨q, more, mem_cons_of_mem _ hq, fun x hx => mem_cons_of_mem _ (hmore x hx), ?_⟩
      rw [getLast?_cons, hlast]
      rfl

theorem cut_node (h : (Tree.node k blank parts).Valid)
    (hlen : (Tree.node k blank parts).text.length ≤ len) :
    cut k ⟨(Tree.node k blank parts).text ++ rest, len⟩ =
      .ok (((placed k.closing rest parts).take (min 16384 (len / k.least))).map fun q =>
      (q.1.slices q.2).2) := by
  unfold cut
  dsimp only
  split
  · rename_i hzero
    rw [hzero]
    rfl
  · rename_i hne
    have hpos : 0 < min 16384 (len / k.least) := Nat.pos_of_ne_zero hne
    cases h with
    | node hblank hlaid hvalues =>
    have hvalid : (Tree.node k blank parts).Valid := .node hblank hlaid hvalues
    cases k with
    | object =>
      have helements : elements 125 namedValue (min 16384 (len / Kind.object.least))
          ⟨(Tree.node .object blank parts).text ++ rest, len⟩ = _ :=
        elements_node hvalid (takesParts_namedValue hlaid hvalues) hpos hlen
      dsimp only
      rw [helements, ok_bind, map_map]
      rfl
    | array =>
      exact elements_node hvalid (takesParts_value hlaid hvalues) hpos hlen

theorem tidy_tree {v : Tree} (h : v.Valid) (htrail : Blank trail) (hroot : root = false →
    trail = []) : Tidy root fuel ⟨v.text ++ (trail ++ rest), v.text.length + trail.length⟩ := by
  induction h generalizing root trail rest fuel with
  | @unit u hu =>
    cases fuel with
    | zero => trivial
    | succ fuel =>
      intro k hk
      obtain ⟨c, tail, rfl, -, h₁, h₂⟩ := hu.opens
      cases hk
      cases k with
      | object => exact absurd rfl h₁
      | array => exact absurd rfl h₂
  | @node k blank parts hblank hlaid hvalues ih =>
    cases fuel with
    | zero => trivial
    | succ fuel =>
      intro k' hk kept hcut
      cases Kind.opening_inj (Option.some.inj (head?_node.symm.trans hk))
      have hvalid : (Tree.node k blank parts).Valid := .node hblank hlaid hvalues
      rw [cut_node hvalid (Nat.le_add_right _ _)] at hcut
      cases Except.ok.inj hcut
      have hoffset : ((Tree.node k blank parts).text ++ (trail ++ rest)).length -
          ((Tree.node k blank parts).text.length + trail.length) = rest.length := by
        simp only [length_append]
        omega
      have hunread (u : Bytes) : (u ++ rest).take ((u ++ rest).length - rest.length) = u := by
        simp
      refine ⟨?_, ?_⟩
      · cases parts with
        | nil =>
          refine ⟨blank, [], trail, hblank, by simp, fun _ => rfl, htrail, hroot, ?_⟩
          have htext : ((Tree.node k blank []).text ++ (trail ++ rest)).drop 1 =
              (blank ++ tailText k.closing trail []) ++ rest := by
            simp [Tree.text, partsTexts, intercalate, tailText]
          rw [unread, hoffset, placed, take_nil, map_nil, getLast?_nil]
          dsimp only
          rw [htext, hunread]
        | cons p parts =>
          have hcount := hvalid.count_le
          rw [length_cons] at hcount
          have hmost : (Tree.node k blank (p :: parts)).text.length / k.least ≤
              ((Tree.node k blank (p :: parts)).text.length + trail.length) / k.least :=
            Nat.div_le_div_right (Nat.le_add_right _ _)
          obtain ⟨q, more, hq, hmore, hlast⟩ := placed_last k.closing (trail ++ rest) p parts
            (show 0 < min 16384 (((Tree.node k blank (p :: parts)).text.length + trail.length) /
              k.least) by omega)
          refine ⟨q.behind, more, trail, (hlaid q hq).behind,
            fun x hx => ⟨hlaid x (hmore x hx), hvalues x (hmore x hx)⟩, ?_, htrail, hroot, ?_⟩
          · intro hnone
            rw [map_eq_nil_iff] at hnone
            rw [hnone] at hlast
            cases hlast
          · rw [unread, hoffset, getLast?_map, hlast]
            dsimp only [Option.map_some, Part.slices]
            rw [drop_left, tailText_append, ← append_assoc, hunread]
      · intro v hv
        obtain ⟨q, hq, rfl⟩ := mem_map.1 hv
        have hmem := mem_placed (mem_of_mem_take hq)
        exact ih q.1 hmem blank_nil fun _ => rfl

end

/-- An accepted text that begins with a bracket is a text of the grammar if and only if what the
decoder leaves unread of its containers closes them. -/
theorem accepted_grammatical_iff {malloc : Nat → Bool} {text : Bytes} {size : Int} {json : SwJson}
    (h : swJsonDecode malloc text size = .ok json) {lead rest : Bytes} (hlead : Blank lead)
    {k : Kind} (hstart : text = lead ++ k.opening :: rest) : Grammatical text ↔ TidyText text := by
  have hskip : skip (fun _ => false) (text ++ [0]) text.length 0 =
      .ok (0, ⟨k.opening :: (rest ++ [0]), text.length - lead.length⟩) := by
    rw [hstart, append_assoc, skip_blanks hlead (by simp), cons_append]
    exact skip_stop k.opens.plain.1 rfl
  have hleft : text.length - lead.length = rest.length + 1 := by
    rw [hstart]
    simp
  constructor
  · rintro ⟨lead', tree, trail, hlead', htrail, hvalid, hnode, rfl⟩ i c hc
    cases Except.ok.inj (hc.symm.trans (skip_tree hlead' hvalid))
    exact tidy_tree hvalid htrail (fun h => by cases h)
  · intro htidy
    have htidy := htidy 0 _ hskip
    rw [swJsonDecode, hskip, ok_bind] at h
    dsimp only at h htidy
    split at h
    · cases h
    · obtain ⟨r, hvalue, -⟩ := bind_eq_ok.1 h
      rw [hleft] at hvalue htidy
      obtain ⟨tree, trail, hvalid, htrail, -, htext, hnode⟩ :=
        htidy.tree hvalue (by simp) (by simp) (fun h₁ h₂ => by
          cases k with
          | object => exact absurd rfl h₁
          | array => exact absurd rfl h₂)
      refine ⟨lead, tree, trail, hlead, htrail, hvalid, hnode k rfl, ?_⟩
      have hwhole : (k.opening :: (rest ++ [0])).take (rest.length + 1) =
        k.opening :: rest := by simp
      rw [← htext, hwhole, hstart]

/-- ` [a,{b:c}]` is accepted, a text of the grammar, and tidy. -/
theorem accepted_grammatical_iff_nested :
    swJsonDecode (fun _ => true) [32, 91, 97, 44, 123, 98, 58, 99, 125, 93] 128 =
        .ok (.arr (some [.str [97], .obj (some [([98], .str [99])])])) ∧
      Grammatical [32, 91, 97, 44, 123, 98, 58, 99, 125, 93] ∧
      TidyText [32, 91, 97, 44, 123, 98, 58, 99, 125, 93] := by
  have haccepted : swJsonDecode (fun _ => true) [32, 91, 97, 44, 123, 98, 58, 99, 125, 93] 128 =
      .ok (.arr (some [.str [97], .obj (some [([98], .str [99])])])) := rfl
  have hspace : Blank [32] := by simp [Blank, isBlank]
  let member : Part Tree := ⟨[], some ⟨[98], [], []⟩, .unit [99], []⟩
  let tree : Tree :=
    .node .array [] [⟨[], none, .unit [97], []⟩, ⟨[], none, .node .object [] [member], []⟩]
  have hobject : (Tree.node .object [] [member]).Valid := by
    refine .node blank_nil ?_ ?_
    · simp only [mem_singleton, forall_eq]
      exact ⟨blank_nil, blank_nil, ⟨by decide, rfl⟩, blank_nil, blank_nil⟩
    · simp only [mem_singleton, forall_eq]
      exact .unit ⟨by decide, rfl⟩
  have htree : tree.Valid := by
    refine .node blank_nil ?_ ?_
    · simp only [mem_cons, not_mem_nil, or_false, forall_eq_or_imp, forall_eq]
      exact ⟨⟨blank_nil, blank_nil, trivial⟩, blank_nil, blank_nil, trivial⟩
    · simp only [mem_cons, not_mem_nil, or_false, forall_eq_or_imp, forall_eq]
      exact ⟨.unit ⟨by decide, rfl⟩, hobject⟩
  have hgrammatical : Grammatical [32, 91, 97, 44, 123, 98, 58, 99, 125, 93] :=
    ⟨[32], tree, [], hspace, blank_nil, htree, rfl, rfl⟩
  exact ⟨haccepted, hgrammatical, (accepted_grammatical_iff haccepted hspace
    (show _ = [32] ++ Kind.array.opening :: [97, 44, 123, 98, 58, 99, 125, 93] from rfl)).1
      hgrammatical⟩

/-- `[a` is accepted as an array of one string, although its bracket is not closed: there is
room for one element, and the decoder does not look behind it. -/
theorem unclosed_is_accepted :
    swJsonDecode (fun _ => true) [91, 97] 64 = .ok (.arr (some [.str [97]])) ∧
    ¬Grammatical [91, 97] := by
  refine ⟨rfl, ?_⟩
  rintro ⟨lead, tree, trail, -, -, -, hnode, htext⟩
  cases tree with
  | unit u => cases hnode
  | node k blank parts =>
    have hclosing : k.closing ∈ ([91, 97] : Bytes) := by
      rw [htext, Tree.text]
      simp
    cases k with
    | object | array => exact absurd hclosing (by decide)

end SwApi.Json
