import SwApi.Json.Model

/-! How far the length functions of the decoder look: over a unit, whatever comes behind it. -/
namespace SwApi.Json
open Library List

theorem quotedLength_plain (hc : c ≠ 92) : quotedLength ch (c :: p) (left + 1) n =
      if c = ch then .ok (n + 1) else quotedLength ch p left (n + 1) := by
  cases p with
  | nil | cons e p => exact if_neg hc

theorem quotedLength_ctrl (he : isCtrl e = true) :
    quotedLength ch (92 :: e :: p) (left + 1) n = quotedLength ch p (left - 1) (n + 2) :=
  (if_pos rfl).trans (if_pos he)

theorem quotedLength_slash (he : isCtrl e = false) :
    quotedLength ch (92 :: e :: p) (left + 1) n = quotedLength ch (e :: p) left (n + 1) := by
  rw [quotedLength, if_pos rfl, he, if_neg Bool.false_ne_true]

theorem quotedLength_take (h : quotedLength ch p left n = .ok k) (hk : 0 ≤ k) :
    ∃ m : Nat, k = n + m ∧ 0 < m ∧ m ≤ left ∧ m ≤ p.length ∧ p[m - 1]? = some ch ∧
      ∀ rest left', m ≤ left' → quotedLength ch (p.take m ++ rest) left' n = .ok k := by
  fun_induction quotedLength ch p left n with
  | case1 => cases h; omega
  | case2 | case3 => cases h
  | case4 left n hslash | case8 left n e p' hslash =>
    cases h
    refine ⟨1, by omega, by omega, by omega, by simp, rfl, ?_⟩
    intro rest left' hleft'
    obtain ⟨r, rfl⟩ : ∃ r, left' = r + 1 := ⟨left' - 1, by omega⟩
    exact (quotedLength_plain hslash).trans (if_pos rfl)
  | case5 left n c hslash hend ih =>
    obtain ⟨m, -, hm, -, hlen, -, -⟩ := ih h
    simp at hlen
    omega
  | case6 left n e p' hctrl ih =>
    obtain ⟨m, hkm, hm, hleft, hlen, hlast, hlocal⟩ := ih h
    refine ⟨m + 2, by omega, by omega, by omega, by simp; omega, ?_, ?_⟩
    · rw [show m + 2 - 1 = m - 1 + 2 by omega]
      exact hlast
    · intro rest left' hleft'
      obtain ⟨l, rfl⟩ : ∃ l, left' = l + 1 := ⟨left' - 1, by omega⟩
      exact (quotedLength_ctrl hctrl).trans (hlocal rest (l - 1) (by omega))
  | case7 left n e p' hctrl ih =>
    obtain ⟨m, hkm, hm, hleft, hlen, hlast, hlocal⟩ := ih h
    obtain ⟨l, rfl⟩ : ∃ l, m = l + 1 := ⟨m - 1, by omega⟩
    refine ⟨l + 2, by omega, by omega, by omega, by simpa using hlen, hlast, ?_⟩
    intro rest left' hleft'
    obtain ⟨r, rfl⟩ : ∃ r, left' = r + 1 := ⟨left' - 1, by omega⟩
    exact (quotedLength_slash (by simpa using hctrl)).trans (hlocal rest r (by omega))
  | case9 left n c e p' hslash hend ih =>
    obtain ⟨m, hkm, hm, hleft, hlen, hlast, hlocal⟩ := ih h
    obtain ⟨l, rfl⟩ : ∃ l, m = l + 1 := ⟨m - 1, by omega⟩
    refine ⟨l + 2, by omega, by omega, by omega, by simpa using hlen, hlast, ?_⟩
    intro rest left' hleft'
    obtain ⟨r, rfl⟩ : ∃ r, left' = r + 1 := ⟨left' - 1, by omega⟩
    exact ((quotedLength_plain hslash).trans (if_neg hend)).trans (hlocal rest r (by omega))

def Stops (rest : Bytes) : Prop := ∃ c tail, rest = c :: tail ∧ isAlpha c = false

theorem atomLength_eq (ha : ∀ c ∈ a, isAlpha c = true) (hleft : a.length ≤ left)
    (hstop : left = a.length ∨ Stops rest) : atomLength (a ++ rest) left = .ok a.length := by
  induction a generalizing left with
  | nil =>
    cases left with
    | zero => simp [atomLength]
    | succ left =>
      obtain ⟨c, tail, rfl, hc⟩ := hstop.resolve_left (Nat.succ_ne_zero left)
      simp [atomLength, hc]
  | cons c a ih =>
    obtain ⟨l, rfl⟩ : ∃ l, left = l + 1 := ⟨left - 1, by simp at hleft; omega⟩
    have hrest : atomLength (a ++ rest) l = .ok a.length :=
      ih (forall_mem_cons.1 ha).2 (by simpa using hleft)
        (hstop.imp_left fun h => by simpa using h)
    simp [atomLength, ha c mem_cons_self, hrest]

theorem atomLength_inv (h : atomLength p left = .ok n) :
    n ≤ left ∧ n ≤ p.length ∧ (∀ c ∈ p.take n, isAlpha c = true) := by
  induction p generalizing left n with
  | nil =>
    cases left with
    | zero => cases h; simp
    | succ left => cases h
  | cons c p ih =>
    cases left with
    | zero => cases h; simp
    | succ left =>
      simp only [atomLength] at h
      split at h
      · rename_i hc
        obtain ⟨m, hm, h⟩ := bind_eq_ok.1 h
        cases h
        obtain ⟨hleft, hlen, hall⟩ := ih hm
        exact ⟨by omega, by simpa using hlen, forall_mem_cons.2 ⟨hc, hall⟩⟩
      · cases h
        exact ⟨by omega, by simp, by simp⟩

def IsUnit (u : Bytes) : Prop := u ≠ [] ∧ getStringLength ⟨u, u.length⟩ = .ok u.length

theorem getStringLength_cons : getStringLength ⟨c :: p, left⟩ = if isQuote c then
      quotedLength c p (left - 1) 1 else atomLength (c :: p) left >>= fun n => .ok (n : Int) := rfl

theorem IsUnit.cases (h : IsUnit u) :
    (∃ ch p, u = ch :: p ∧ isQuote ch = true ∧ quotedLength ch p p.length 1 = .ok (p.length + 1)) ∨
      u ≠ [] ∧ ∀ c ∈ u, isAlpha c = true := by
  obtain ⟨hne, hlength⟩ := h
  cases u with
  | nil => exact absurd rfl hne
  | cons c p =>
    rw [getStringLength_cons] at hlength
    split at hlength
    · rename_i hquote
      exact .inl ⟨c, p, rfl, hquote, by simpa using hlength⟩
    · obtain ⟨n, hatom, hlength⟩ := bind_eq_ok.1 hlength
      have hn : n = (c :: p).length := by
        have := Except.ok.inj hlength
        omega
      obtain ⟨-, -, hall⟩ := atomLength_inv hatom
      rw [hn, take_length] at hall
      exact .inr ⟨hne, hall⟩

theorem isUnit_atom (hne : u ≠ []) (hall : ∀ c ∈ u, isAlpha c = true)
    (hquote : ∀ c, isAlpha c = true → isQuote c = false) : IsUnit u := by
  refine ⟨hne, ?_⟩
  cases u with
  | nil => exact absurd rfl hne
  | cons c p =>
    have hatom : atomLength (c :: p ++ []) (c :: p).length = .ok (c :: p).length :=
      atomLength_eq hall le_rfl (.inl rfl)
    rw [append_nil] at hatom
    rw [getStringLength_cons, hquote c (hall c mem_cons_self), if_neg Bool.false_ne_true, hatom]
    rfl

theorem ne_of_isAlpha (hc : isAlpha c = true) (hd : isAlpha d = false) : c ≠ d := by
  rintro rfl
  exact Bool.noConfusion (hc.symm.trans hd)

theorem not_isQuote_of_isAlpha (h : isAlpha c = true) : isQuote c = false := by
  simp [isQuote, ne_of_isAlpha h (d := 34) (by decide), ne_of_isAlpha h (d := 39) (by decide)]

theorem quoted_length (hquote : isQuote ch = true)
    (hlength : quotedLength ch p p.length 1 = .ok (p.length + 1)) (hleft : p.length + 1 ≤ left) :
    getStringLength ⟨ch :: p ++ rest, left⟩ = .ok (ch :: p).length := by
  obtain ⟨m, hm, -, -, -, -, hlocal⟩ := quotedLength_take hlength (by omega)
  have hmp : m = p.length := by omega
  subst hmp
  have hfound := hlocal rest (left - 1) (by omega)
  rw [take_length] at hfound
  rw [cons_append, getStringLength_cons, if_pos hquote, hfound]
  simp

theorem IsUnit.length (h : IsUnit u) (hleft : u.length ≤ left) (hstop : left = u.length ∨
    Stops rest) : getStringLength ⟨u ++ rest, left⟩ = .ok u.length := by
  rcases h.cases with ⟨ch, p, rfl, hquote, hlength⟩ | ⟨hne, hall⟩
  · exact quoted_length hquote hlength (by simpa using hleft)
  · cases u with
    | nil => exact absurd rfl hne
    | cons c p =>
      rw [cons_append, getStringLength_cons,
        not_isQuote_of_isAlpha (hall c mem_cons_self), if_neg Bool.false_ne_true,
        ← cons_append, atomLength_eq hall hleft hstop]
      rfl

theorem isUnit_take (h : getStringLength ⟨p, left⟩ = .ok n) (hn : 0 < n) :
    IsUnit (p.take n.toNat) ∧ n.toNat ≤ left ∧ n.toNat ≤ p.length := by
  cases p with
  | nil => cases h
  | cons c p =>
    rw [getStringLength_cons] at h
    split at h
    · rename_i hquote
      obtain ⟨m, hnm, hm, hleft, hlen, -, hlocal⟩ := quotedLength_take h (by omega)
      have hnat : n.toNat = m + 1 := by omega
      refine ⟨⟨by simp [hnat], ?_⟩, by omega, by simp; omega⟩
      rw [hnat, take_succ_cons, getStringLength_cons, if_pos hquote]
      have hself := hlocal [] m le_rfl
      rw [append_nil, hnm] at hself
      simpa [length_take, Nat.min_eq_left hlen, Int.add_comm] using hself
    · obtain ⟨m, hatom, h⟩ := bind_eq_ok.1 h
      obtain ⟨hleft, hlen, hall⟩ := atomLength_inv hatom
      have hnat : n.toNat = m := by
        have := Except.ok.inj h
        omega
      rw [hnat]
      exact ⟨isUnit_atom (by simp; omega) hall fun _ => not_isQuote_of_isAlpha, hleft, hlen⟩

def Blank (w : Bytes) : Prop := ∀ c ∈ w, isBlank c = true

theorem blank_nil : Blank [] := by
  intro c hc
  cases hc

theorem skip_blanks (hw : Blank w) (hleft : w.length ≤ left) :
    skip sep (w ++ rest) left i = skip sep rest (left - w.length) i := by
  induction w generalizing left with
  | nil => rfl
  | cons c w ih =>
    obtain ⟨l, rfl⟩ : ∃ l, left = l + 1 := ⟨left - 1, by simp at hleft; omega⟩
    rw [cons_append, skip, if_pos (hw c mem_cons_self),
      ih (forall_mem_cons.1 hw).2 (by simpa using hleft)]
    simp

theorem skip_stop (hblank : isBlank c = false) (hsep : sep c = false) :
    skip sep (c :: p) left i = .ok (i, ⟨c :: p, left⟩) := by
  cases left with
  | zero => rw [skip]
  | succ left => simp [skip, hblank, hsep]

theorem skip_one (hw : Blank w) (hw' : Blank w') (hc : isBlank c = false)
    (hsep : sep c = true) (hd : isBlank d = false) (hd' : sep d = false)
    (hleft : w.length + 1 + w'.length ≤ left) : skip sep (w ++ c :: (w' ++ d :: rest)) left i =
      .ok (i + 1, ⟨d :: rest, left - (w.length + 1 + w'.length)⟩) := by
  obtain ⟨l, hl⟩ : ∃ l, left - w.length = l + 1 := ⟨left - w.length - 1, by omega⟩
  rw [skip_blanks hw (by omega), hl, show skip sep (c :: (w' ++ d :: rest)) (l + 1) i = skip sep
    (w' ++ d :: rest) l (i + 1) by
    simp [skip, hc, hsep], skip_blanks hw' (by omega), skip_stop hd hd']
  rw [show left - (w.length + 1 + w'.length) = l - w'.length by omega]

section
variable {c : Cursor}

theorem advance_left : (c.advance n).left = c.left - n := rfl

theorem jsonLengthLoop_fuel (hfuel : c.left ≤ fuel) (hfuel' : c.left ≤ fuel') :
    jsonLengthLoop ch th fuel c depth k = jsonLengthLoop ch th fuel' c depth k := by
  induction fuel generalizing fuel' c depth k with
  | zero =>
    cases fuel' with
    | zero => rfl
    | succ fuel' => rw [jsonLengthLoop, jsonLengthLoop, if_pos (by omega)]
  | succ fuel ih =>
    cases fuel' with
    | zero => rw [jsonLengthLoop, jsonLengthLoop, if_pos (by omega)]
    | succ fuel' =>
      have hnext (n : Nat) (hn : 0 < n) (depth k : Nat) :
          jsonLengthLoop ch th fuel (c.advance n) depth k =
            jsonLengthLoop ch th fuel' (c.advance n) depth k :=
        ih (by rw [advance_left]; omega) (by rw [advance_left]; omega)
      rw [jsonLengthLoop, jsonLengthLoop]
      split
      · rfl
      · refine congrArg (Except.bind _) (funext fun b => ?_)
        split
        · refine congrArg (Except.bind _) (funext fun e => ?_)
          apply hnext
          split <;> omega
        · split
          · refine congrArg (Except.bind _) (funext fun vlen => ?_)
            split
            · rfl
            · exact hnext _ (by omega) ..
          · simp [hnext 1 Nat.one_pos]

def IsPair (ch th : UInt8) : Prop := ch = 123 ∧ th = 125 ∨ ch = 91 ∧ th = 93

/-- A search for the closing bracket passes over `b`. -/
def Passes (b : Bytes) : Prop :=
  ∀ ch th rest left depth k fuel, IsPair ch th → b.length ≤ left → left ≤ fuel →
    jsonLengthLoop ch th fuel ⟨b ++ rest, left⟩ depth k =
      jsonLengthLoop ch th fuel ⟨rest, left - b.length⟩ depth (k + b.length)

theorem Passes.nil : Passes [] := by
  intro ch th rest left depth k fuel _ _ _
  rfl

theorem Passes.append (ha : Passes a) (hb : Passes b) : Passes (a ++ b) := by
  intro ch th rest left depth k fuel hpair hleft hfuel
  rw [length_append] at hleft
  rw [append_assoc, ha ch th _ _ _ _ _ hpair (by omega) hfuel,
    hb ch th _ _ _ _ _ hpair (by omega) (by omega), length_append, Nat.sub_sub, Nat.add_assoc]

theorem jsonLengthLoop_round {c : UInt8} (hfuel : left + 1 ≤ fuel) (hslash : c ≠ 92)
    (hquote : isQuote c = false) : jsonLengthLoop ch th fuel ⟨c :: p, left + 1⟩ depth k =
      if c = ch then jsonLengthLoop ch th fuel ⟨p, left⟩ (depth + 1) (k + 1) else if c = th then
        if depth = 0 then .ok (k + 1) else jsonLengthLoop ch th fuel ⟨p, left⟩ (depth - 1) (k + 1)
      else jsonLengthLoop ch th fuel ⟨p, left⟩ depth (k + 1) := by
  obtain ⟨f, rfl⟩ : ∃ f, fuel = f + 1 := ⟨fuel - 1, by omega⟩
  have hmore (depth k : Nat) : jsonLengthLoop ch th f ⟨p, left⟩ depth k =
      jsonLengthLoop ch th (f + 1) ⟨p, left⟩ depth k :=
    jsonLengthLoop_fuel (by simpa using hfuel) (by simp; omega)
  conv_lhs => rw [jsonLengthLoop, if_neg (Nat.succ_ne_zero left)]
  simp only [Cursor.first, head?_cons, ofOption_some, ok_bind, if_neg hslash, hquote,
    Bool.false_eq_true, if_false, Cursor.advance, drop_succ_cons, drop_zero,
    Nat.add_sub_cancel, hmore]

theorem Passes.plain {c : UInt8} (hslash : c ≠ 92) (hquote : isQuote c = false) (h₁ : c ≠ 123)
    (h₂ : c ≠ 125) (h₃ : c ≠ 91) (h₄ : c ≠ 93) : Passes [c] := by
  intro ch th rest left depth k fuel hpair hleft hfuel
  obtain ⟨l, rfl⟩ : ∃ l, left = l + 1 := ⟨left - 1, by simp at hleft; omega⟩
  rw [singleton_append, jsonLengthLoop_round hfuel hslash hquote]
  rcases hpair with ⟨rfl, rfl⟩ | ⟨rfl, rfl⟩
  · rw [if_neg h₁, if_neg h₂]
    rfl
  · rw [if_neg h₃, if_neg h₄]
    rfl

theorem Passes.all (h : ∀ c ∈ b, Passes [c]) : Passes b := by
  induction b with
  | nil => exact .nil
  | cons c b ih =>
    rw [← singleton_append]
    exact (h c mem_cons_self).append (ih (forall_mem_cons.1 h).2)

theorem Passes.blank (h : Blank b) : Passes b := by
  apply Passes.all
  intro c hc
  have hblank := h c hc
  simp only [isBlank, Bool.or_eq_true, beq_iff_eq] at hblank
  rcases hblank with ((rfl | rfl) | rfl) | rfl <;>
    exact .plain (by decide) (by decide) (by decide) (by decide) (by decide) (by decide)

theorem Passes.atom {u : Bytes} (h : ∀ c ∈ u, isAlpha c = true) : Passes u := by
  apply Passes.all
  intro c hc
  have hne {d : UInt8} (hd : isAlpha d = false) : c ≠ d := ne_of_isAlpha (h c hc) hd
  exact .plain (hne (by decide)) (not_isQuote_of_isAlpha (h c hc)) (hne (by decide))
    (hne (by decide)) (hne (by decide)) (hne (by decide))

theorem Passes.unit (h : IsUnit u) : Passes u := by
  rcases h.cases with ⟨q, p, rfl, hquote, hlength⟩ | ⟨-, hall⟩
  · intro ch th rest left depth k fuel hpair hleft hfuel
    obtain ⟨f, rfl⟩ : ∃ f, fuel = f + 1 := ⟨fuel - 1, by simp at hleft; omega⟩
    have hslash : q ≠ 92 := by
      rintro rfl
      cases hquote
    have hleft0 : left ≠ 0 := by
      simp at hleft
      omega
    have hvlen : getStringLength ⟨q :: p ++ rest, left⟩ = .ok (q :: p).length :=
      quoted_length hquote hlength (by simpa using hleft)
    rw [jsonLengthLoop, if_neg hleft0]
    simp only [Cursor.first, cons_append, head?_cons, ofOption_some, ok_bind, if_neg hslash,
      hquote, if_true]
    rw [← cons_append, hvlen, ok_bind, if_neg (by simp), Cursor.advance]
    simp only [Int.toNat_natCast, drop_left]
    exact jsonLengthLoop_fuel (by simp at hleft ⊢; omega) (by simp; omega)
  · exact .atom hall

theorem Passes.brackets {o e : UInt8} (hpair : IsPair o e) (hb : Passes b) :
    Passes (o :: b ++ [e]) := by
  intro ch th rest left depth k fuel hsearch hleft hfuel
  simp only [cons_append, length_cons, length_append, length_nil] at hleft
  obtain ⟨l, rfl⟩ : ∃ l, left = l + 1 := ⟨left - 1, by omega⟩
  obtain ⟨r, hr⟩ : ∃ r, l - b.length = r + 1 := ⟨l - b.length - 1, by omega⟩
  have hlast : l + 1 - (o :: b ++ [e]).length = r := by simp; omega
  have hcount : k + (o :: b ++ [e]).length = k + 1 + b.length + 1 := by simp; omega
  rw [hlast, hcount, cons_append, cons_append, append_assoc, singleton_append]
  have hround (d : Nat) : jsonLengthLoop ch th fuel ⟨b ++ e :: rest, l⟩ d (k + 1) =
      jsonLengthLoop ch th fuel ⟨e :: rest, r + 1⟩ d (k + 1 + b.length) := by
    rw [hb ch th _ _ _ _ _ hsearch (by omega) (by omega), hr]
  have ho : o ≠ 92 ∧ isQuote o = false := by
    rcases hpair with ⟨rfl, rfl⟩ | ⟨rfl, rfl⟩ <;> decide
  have he : e ≠ 92 ∧ isQuote e = false := by
    rcases hpair with ⟨rfl, rfl⟩ | ⟨rfl, rfl⟩ <;> decide
  rw [jsonLengthLoop_round hfuel ho.1 ho.2]
  simp only [hround, jsonLengthLoop_round (show r + 1 ≤ fuel by omega) he.1 he.2]
  rcases hpair with ⟨rfl, rfl⟩ | ⟨rfl, rfl⟩ <;> rcases hsearch with ⟨rfl, rfl⟩ | ⟨rfl, rfl⟩ <;> simp

theorem getJsonLength_eq {o e : UInt8} (hpair : IsPair o e) (hb : Passes b)
    (hleft : b.length + 2 ≤ left) :
    getJsonLength ⟨o :: b ++ e :: rest, left⟩ = .ok (b.length + 2 : Nat) := by
  obtain ⟨r, hr⟩ : ∃ r, left - 1 - b.length = r + 1 := ⟨left - 1 - b.length - 1, by omega⟩
  have he : e ≠ 92 ∧ isQuote e = false := by
    rcases hpair with ⟨rfl, rfl⟩ | ⟨rfl, rfl⟩ <;> decide
  have hloop : jsonLengthLoop o e left ⟨b ++ e :: rest, left - 1⟩ 0 1 = .ok
    (b.length + 2 : Nat) := by
    rw [hb o e _ _ _ _ _ hpair (by omega) (by omega), hr, jsonLengthLoop_round (by omega) he.1 he.2]
    have hne : e ≠ o := by
      rcases hpair with ⟨rfl, rfl⟩ | ⟨rfl, rfl⟩ <;> decide
    rw [if_neg hne, if_pos rfl, if_pos rfl]
    congr 1
    omega
  rcases hpair with ⟨rfl, rfl⟩ | ⟨rfl, rfl⟩ <;> exact hloop

end

end SwApi.Json
