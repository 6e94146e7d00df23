import SwApi.Json.Scan

/-! The grammar of the decoder: units and containers, with blanks between the tokens. -/
namespace SwApi.Json
open Library List

inductive Kind where
  | object
  | array
deriving DecidableEq

def Kind.opening : Kind → UInt8
  | .object => 123
  | .array => 91

def Kind.closing : Kind → UInt8
  | .object => 125
  | .array => 93

structure Label where
  name : Bytes
  before : Bytes
  after : Bytes

def Label.text (l : Label) : Bytes := l.name ++ (l.before ++ 58 :: l.after)

structure Part (α : Type) where
  before : Bytes
  label : Option Label
  value : α
  behind : Bytes

inductive Tree where
  | unit (u : Bytes)
  | node (k : Kind) (blank : Bytes) (parts : List (Part Tree))

def labelText : Option Label → Bytes
  | none => []
  | some l => l.text

mutual
def Tree.text : Tree → Bytes
  | .unit u => u
  | .node k blank parts =>
      k.opening :: (blank ++ (intercalate [44] (partsTexts parts) ++ [k.closing]))

def partsTexts : List (Part Tree) → List Bytes
  | [] => []
  | p :: parts => p.text :: partsTexts parts

def Part.text : Part Tree → Bytes
  | ⟨before, label, value, behind⟩ => before ++ (labelText label ++ (value.text ++ behind))
end

def Part.core (p : Part Tree) : Bytes := labelText p.label ++ p.value.text

def Fits : Kind → Option Label → Prop
  | .object, some l => IsUnit l.name ∧ Blank l.before ∧ Blank l.after
  | .array, none => True
  | _, _ => False

structure Part.Laid (k : Kind) (p : Part Tree) : Prop where
  before : Blank p.before
  behind : Blank p.behind
  label : Fits k p.label

inductive Tree.Valid : Tree → Prop where
  | unit {u} (h : IsUnit u) : Valid (.unit u)
  | node {k blank parts} (hblank : Blank blank) (hlaid : ∀ p ∈ parts, p.Laid k)
      (hvalues : ∀ p ∈ parts, Valid p.value) : Valid (.node k blank parts)

def Tree.isNode : Tree → Bool
  | .unit _ => false
  | .node _ _ _ => true

/-- A text of the grammar: a container, with blanks around it. -/
def Grammatical (text : Bytes) : Prop :=
  ∃ (lead : Bytes) (tree : Tree) (trail : Bytes), Blank lead ∧ Blank trail ∧ tree.Valid ∧
    tree.isNode = true ∧ text = lead ++ (tree.text ++ trail)

section
variable {v : Tree} {p : Part Tree}

def Opens (c : UInt8) : Prop := isQuote c = true ∨ isAlpha c = true ∨ c = 123 ∨ c = 91

theorem Opens.plain (h : Opens c) : isBlank c = false ∧ c ≠ 44 ∧ c ≠ 58 ∧ c ≠ 125 ∧ c ≠ 93 := by
  rcases h with hquote | halpha | rfl | rfl
  · simp only [isQuote, Bool.or_eq_true, beq_iff_eq] at hquote
    rcases hquote with rfl | rfl <;> decide
  · have hne {d : UInt8} (hd : isAlpha d = false) : c ≠ d := ne_of_isAlpha halpha hd
    refine ⟨?_, hne (by decide), hne (by decide), hne (by decide), hne (by decide)⟩
    simp [isBlank, hne (d := 32) (by decide), hne (d := 9) (by decide), hne (d := 13) (by decide),
      hne (d := 10) (by decide)]
  · decide
  · decide

theorem IsUnit.opens (h : IsUnit u) : ∃ c tail, u = c :: tail ∧ Opens c ∧ c ≠ 123 ∧ c ≠ 91 := by
  rcases h.cases with ⟨c, tail, rfl, hquote, -⟩ | ⟨hne, hall⟩
  · refine ⟨c, tail, rfl, .inl hquote, ?_, ?_⟩
    · rintro rfl
      cases hquote
    · rintro rfl
      cases hquote
  · cases u with
    | nil => exact absurd rfl hne
    | cons c tail =>
      have hc := hall c mem_cons_self
      exact ⟨c, tail, rfl, .inr (.inl hc), ne_of_isAlpha hc (by decide),
        ne_of_isAlpha hc (by decide)⟩

theorem Kind.opens (k : Kind) : Opens k.opening := by
  cases k with
  | object => exact .inr (.inr (.inl rfl))
  | array => exact .inr (.inr (.inr rfl))

theorem Tree.Valid.opens (h : v.Valid) : ∃ c tail, v.text = c :: tail ∧ Opens c := by
  cases h with
  | unit h =>
    obtain ⟨c, tail, rfl, hc, -⟩ := h.opens
    exact ⟨c, tail, rfl, hc⟩
  | @node k blank parts =>
    rw [Tree.text]
    exact ⟨k.opening, _, rfl, k.opens⟩

theorem Fits.object (h : Fits .object label) : ∃ l, label = some l ∧ IsUnit l.name ∧
    Blank l.before ∧ Blank l.after := by
  cases label with
  | none => exact h.elim
  | some l => exact ⟨l, rfl, h⟩

theorem Fits.array (h : Fits .array label) : label = none := by
  cases label with
  | none => rfl
  | some l => exact h.elim

theorem Part.Laid.opens (h : p.Laid k) (hv : p.value.Valid) : ∃ c tail, p.core = c :: tail ∧
    Opens c := by
  cases k with
  | array =>
    obtain ⟨c, tail, htext, hc⟩ := hv.opens
    exact ⟨c, tail, by rw [Part.core, h.label.array, htext]; rfl, hc⟩
  | object =>
    obtain ⟨l, hlabel, hunit, -⟩ := h.label.object
    obtain ⟨c, tail, hname, hc, -⟩ := hunit.opens
    exact ⟨c, _, by rw [Part.core, hlabel, labelText, Label.text, hname]; rfl, hc⟩

theorem Part.Laid.core_pos (h : p.Laid k) (hv : p.value.Valid) : 0 < p.core.length := by
  obtain ⟨c, tail, hcore, -⟩ := h.opens hv
  simp [hcore]

theorem stops_blank (hw : Blank w) (hc : isAlpha c = false) : Stops (w ++ c :: rest) := by
  cases w with
  | nil => exact ⟨c, rest, rfl, hc⟩
  | cons b w =>
    have hb := hw b mem_cons_self
    simp only [isBlank, Bool.or_eq_true, beq_iff_eq] at hb
    refine ⟨b, w ++ c :: rest, rfl, ?_⟩
    rcases hb with ((rfl | rfl) | rfl) | rfl <;> decide

end

section
variable {v : Tree}

theorem Kind.isPair (k : Kind) : IsPair k.opening k.closing := by
  cases k with
  | object => exact .inl ⟨rfl, rfl⟩
  | array => exact .inr ⟨rfl, rfl⟩

theorem passes_comma : Passes [44] :=
  .plain (by decide) (by decide) (by decide) (by decide) (by decide) (by decide)

theorem passes_colon : Passes [58] :=
  .plain (by decide) (by decide) (by decide) (by decide) (by decide) (by decide)

theorem passes_intercalate (h : ∀ x ∈ xs, Passes x) : Passes (intercalate [44] xs) := by
  induction xs with
  | nil => exact .nil
  | cons x xs ih =>
    have hx := h x mem_cons_self
    have hxs := ih (forall_mem_cons.1 h).2
    cases xs with
    | nil => simpa [intercalate] using hx
    | cons y ys =>
      rw [intercalate_cons_cons]
      exact (hx.append passes_comma).append hxs

theorem Fits.passes (h : Fits k label) : Passes (labelText label) := by
  cases k with
  | array =>
    rw [h.array]
    exact .nil
  | object =>
    obtain ⟨l, rfl, hname, hbefore, hafter⟩ := h.object
    rw [labelText, Label.text, ← singleton_append]
    exact (Passes.unit hname).append ((Passes.blank hbefore).append
      (passes_colon.append (.blank hafter)))

theorem eq_map {F : List α → List β} (hnil : F [] = []) (hcons : ∀ a as, F (a :: as) = f a :: F as)
    (as : List α) : F as = as.map f := by
  induction as with
  | nil => exact hnil
  | cons a as ih => rw [hcons, ih, map_cons]

theorem partsTexts_eq : ∀ parts, partsTexts parts = parts.map Part.text := eq_map rfl fun _ _ => rfl

theorem Part.text_eq (p : Part Tree) : p.text = p.before ++ (p.core ++ p.behind) := by
  rw [Part.text, Part.core, append_assoc]

theorem passes_parts (hblank : Blank blank) (hlaid : ∀ p ∈ parts, p.Laid k)
    (hvalues : ∀ p ∈ parts, Passes p.value.text) :
    Passes (blank ++ intercalate [44] (partsTexts parts)) := by
  apply (Passes.blank hblank).append
  apply passes_intercalate
  rw [partsTexts_eq, forall_mem_map]
  intro p hp
  have hlaid := hlaid p hp
  rw [Part.text_eq, Part.core]
  exact (Passes.blank hlaid.before).append ((hlaid.label.passes.append (hvalues p hp)).append
    (.blank hlaid.behind))

theorem Tree.Valid.passes (h : v.Valid) : Passes v.text := by
  induction h with
  | unit h => exact .unit h
  | @node k blank parts hblank hlaid hvalues ih =>
    rw [Tree.text, ← append_assoc, ← cons_append]
    exact .brackets k.isPair (passes_parts hblank hlaid ih)

end

section
variable {v : Tree}

theorem Tree.Valid.length (h : v.Valid) (hleft : v.text.length ≤ left)
    (hstop : left = v.text.length ∨ Stops rest) :
    valueLength ⟨v.text ++ rest, left⟩ = .ok v.text.length := by
  cases h with
  | @unit u h =>
    obtain ⟨c, tail, hu, -, h₁, h₂⟩ := h.opens
    have hlength := h.length hleft hstop
    rw [Tree.text] at *
    subst hu
    simpa [valueLength, Cursor.first, h₁, h₂] using hlength
  | @node k blank parts hblank hlaid hvalues =>
    have hpasses := passes_parts hblank hlaid fun p hp => (hvalues p hp).passes
    have hlen : (Tree.node k blank parts).text.length =
        (blank ++ intercalate [44] (partsTexts parts)).length + 2 := by
      rw [Tree.text]
      simp
      omega
    have hlength : getJsonLength ⟨k.opening :: (blank ++ intercalate [44] (partsTexts parts)) ++
        k.closing :: rest, left⟩ = _ := getJsonLength_eq k.isPair hpasses (hlen ▸ hleft)
    have hfirst : k.opening = 91 ∨ k.opening = 123 := by
      cases k with
      | object => exact .inr rfl
      | array => exact .inl rfl
    rw [hlen, ← hlength, Tree.text]
    simp [valueLength, Cursor.first, hfirst]

theorem piece_eq {length : Cursor → Attempt Int} (hne : text ≠ [])
    (h : length ⟨text ++ rest, left⟩ = .ok text.length) :
    piece length ⟨text ++ rest, left⟩ = .ok (⟨text ++ rest, text.length⟩,
    ⟨rest, left - text.length⟩) := by
  simp [piece, h, hne, Cursor.advance]

theorem Tree.Valid.ne_nil (h : v.Valid) : v.text ≠ [] := by
  obtain ⟨c, tail, htext, -⟩ := h.opens
  simp [htext]

theorem Tree.Valid.piece (h : v.Valid) (hleft : v.text.length ≤ left)
    (hstop : left = v.text.length ∨ Stops rest) : piece valueLength ⟨v.text ++ rest, left⟩ =
      .ok (⟨v.text ++ rest, v.text.length⟩, ⟨rest, left - v.text.length⟩) :=
  piece_eq h.ne_nil (h.length hleft hstop)

theorem namedValue_eq {l : Label} (hname : IsUnit l.name) (hbefore : Blank l.before)
    (hafter : Blank l.after) (hv : v.Valid) (hleft : (l.text ++ v.text).length ≤ left)
    (hstop : Stops rest) : namedValue ⟨l.text ++ v.text ++ rest, left⟩ =
      .ok ((⟨l.text ++ v.text ++ rest, l.name.length⟩, ⟨v.text ++ rest, v.text.length⟩),
        ⟨rest, left - (l.text ++ v.text).length⟩) := by
  have hlen : (l.text ++ v.text).length =
      l.name.length + (l.before.length + 1 + l.after.length) + v.text.length := by
    simp [Label.text]
    omega
  rw [hlen] at hleft
  obtain ⟨c, tail, htext, hopens⟩ := hv.opens
  have hsplit : l.text ++ v.text ++ rest = l.name ++
    (l.before ++ 58 :: (l.after ++ (v.text ++ rest))) := by
    simp [Label.text]
  have hplain := hopens.plain
  have hskip : skip (· == 58) (l.before ++ 58 :: (l.after ++ (v.text ++ rest)))
    (left - l.name.length) 0 =
      .ok (1, ⟨v.text ++ rest, left - l.name.length - (l.before.length + 1 + l.after.length)⟩) := by
    rw [htext, cons_append]
    exact skip_one hbefore hafter (by decide) (by decide) hplain.1 (by simpa using hplain.2.2.1)
      (by omega)
  rw [hlen, hsplit, namedValue, piece_eq hname.1 (hname.length (by omega)
    (.inr (stops_blank hbefore (by decide)))), ok_bind]
  simp only [hskip, ok_bind, ne_eq, not_true, if_false]
  rw [hv.piece (by omega) (.inr hstop), ok_bind]
  simp only [Except.ok.injEq, Prod.mk.injEq, true_and]
  rw [show left - l.name.length - (l.before.length + 1 + l.after.length) - v.text.length =
    left - (l.name.length + (l.before.length + 1 + l.after.length) + v.text.length) by omega]

end

section
variable {k : Kind}

def tailText (close : UInt8) (rest : Bytes) : List (Part Tree) → Bytes
  | [] => close :: rest
  | q :: qs => 44 :: (q.before ++ (q.core ++ (q.behind ++ tailText close rest qs)))

def placed (close : UInt8) (rest : Bytes) : List (Part Tree) → List (Part Tree × Bytes)
  | [] => []
  | q :: qs => (q, q.behind ++ tailText close rest qs) :: placed close rest qs

theorem intercalate_tailText (close : UInt8) (rest : Bytes) (p : Part Tree)
    (parts : List (Part Tree)) : intercalate [44] (partsTexts (p :: parts)) ++ close :: rest =
      p.before ++ (p.core ++ (p.behind ++ tailText close rest parts)) := by
  induction parts generalizing p with
  | nil => simp [partsTexts, intercalate, Part.text_eq, tailText]
  | cons q parts ih =>
    rw [partsTexts, partsTexts, intercalate_cons_cons, append_assoc, ← partsTexts, ih,
      Part.text_eq, tailText]
    simp

theorem Kind.closing_plain (k : Kind) :
    isBlank k.closing = false ∧ isAlpha k.closing = false ∧ k.closing ≠ 44 := by
  cases k <;> decide

theorem stops_tailText (hbehind : Blank w) : Stops (w ++ tailText k.closing rest parts) := by
  cases parts with
  | nil => exact stops_blank hbehind k.closing_plain.2.1
  | cons q qs => exact stops_blank hbehind (by decide)

theorem split_close (hw : Blank w) (hleft : w.length < left) :
    ∃ c, split k.closing element maxcount (fuel + 1) ⟨w ++ k.closing :: rest, left⟩ nv = .ok
    (nv, c) := by
  refine ⟨⟨rest, left - w.length - 1⟩, ?_⟩
  have hskip : skip (fun _ => false) (w ++ k.closing :: rest) left 0 =
      .ok (0, ⟨k.closing :: rest, left - w.length⟩) := by
    rw [skip_blanks hw (by omega), skip_stop k.closing_plain.1 rfl]
  rw [split, if_neg (by dsimp only; omega)]
  simp only [hskip, ok_bind, Cursor.first, head?_cons, ofOption_some, if_true]
  rfl

theorem split_round (hw : Blank w) (hleft : w.length < left) (hopens : ∃ c tail, core = c :: tail ∧
    Opens c)
    (helement : element ⟨core ++ r, left - w.length⟩ = .ok
    (a, ⟨r, left - w.length - core.length⟩)) :
    split k.closing element maxcount (fuel + 1) ⟨w ++ (core ++ r), left⟩ nv =
      if maxcount ≤ nv.length + 1 then .ok (nv ++ [a], ⟨r, left - w.length - core.length⟩)
      else skip (· == 44) r (left - w.length - core.length) 0 >>= fun ic => ic.2.first >>= fun ch =>
          if ic.1 ≠ 1 ∧ ch ≠ k.closing then .error .failed
          else split k.closing element maxcount fuel ic.2 (nv ++ [a]) := by
  obtain ⟨c, tail, rfl, hc⟩ := hopens
  have hskip : skip (fun _ => false) (w ++ (c :: tail ++ r)) left 0 =
      .ok (0, ⟨c :: tail ++ r, left - w.length⟩) := by
    rw [skip_blanks hw (by omega), cons_append, skip_stop hc.plain.1 rfl]
  have hne : c ≠ k.closing := by
    have := hc.plain
    cases k with
    | object => exact this.2.2.2.1
    | array => exact this.2.2.2.2
  rw [split, if_neg (by dsimp only; omega)]
  simp only [hskip, ok_bind]
  simp only [Cursor.first, cons_append, head?_cons, ofOption_some, ok_bind, if_neg hne]
  simp only [← cons_append, helement, ok_bind, length_append, length_singleton]

theorem split_parts (rest : Bytes) {f : Part Tree → Bytes → α} (hw : Blank w)
    (hlaid : ∀ q ∈ p :: parts, q.Laid k) (hvalues : ∀ q ∈ p :: parts, q.value.Valid)
    (helement : ∀ q ∈ p :: parts, ∀ r left, q.core.length ≤ left → Stops r →
      element ⟨q.core ++ r, left⟩ = .ok (f q r, ⟨r, left - q.core.length⟩))
    (hroom : nv.length < maxcount) (hfuel : left ≤ fuel)
    (hleft : (w ++ (p.core ++ (p.behind ++ tailText k.closing [] parts))).length ≤ left) :
    ∃ c, split k.closing element maxcount fuel
        ⟨w ++ (p.core ++ (p.behind ++ tailText k.closing rest parts)), left⟩ nv =
      .ok (nv ++ ((placed k.closing rest (p :: parts)).take (maxcount - nv.length)).map
        fun q => f q.1 q.2, c) := by
  induction parts generalizing p w nv left fuel with
  | nil =>
    have hp := hlaid p mem_cons_self
    have hpos := hp.core_pos (hvalues p mem_cons_self)
    simp only [tailText, length_append, length_singleton] at hleft
    obtain ⟨n, rfl⟩ : ∃ n, fuel = n + 2 := ⟨fuel - 2, by omega⟩
    obtain ⟨m, hm⟩ : ∃ m, maxcount - nv.length = m + 1 := ⟨maxcount - nv.length - 1, by omega⟩
    have htaken := helement p mem_cons_self (p.behind ++ tailText k.closing rest [])
      (left - w.length) (by omega) (stops_tailText hp.behind)
    rw [split_round hw (by omega) (hp.opens (hvalues p mem_cons_self)) htaken, hm, placed,
      take_succ_cons, placed, take_nil]
    split
    · exact ⟨_, rfl⟩
    · have hskip : skip (· == 44) (p.behind ++ tailText k.closing rest [])
          (left - w.length - p.core.length) 0 =
            .ok (0, ⟨[] ++ k.closing :: rest,
              left - w.length - p.core.length - p.behind.length⟩) := by
        rw [skip_blanks hp.behind (by omega), tailText]
        exact skip_stop k.closing_plain.1 (by simpa using k.closing_plain.2.2)
      have hfirst (l : Nat) : Cursor.first ⟨[] ++ k.closing :: rest, l⟩ = .ok k.closing := rfl
      rw [hskip, ok_bind, hfirst, ok_bind, if_neg (by simp)]
      exact split_close blank_nil (by simp; omega)
  | cons q parts ih =>
    have hp := hlaid p mem_cons_self
    have hq := hlaid q (by simp)
    have hpos := hp.core_pos (hvalues p mem_cons_self)
    have hlater {P : Part Tree → Prop} (h : ∀ q' ∈ p :: q :: parts, P q') : ∀ q' ∈ q :: parts,
      P q' :=
      (forall_mem_cons.1 h).2
    simp only [tailText, length_append, length_cons] at hleft
    obtain ⟨n, rfl⟩ : ∃ n, fuel = n + 1 := ⟨fuel - 1, by omega⟩
    obtain ⟨m, hm⟩ : ∃ m, maxcount - nv.length = m + 1 := ⟨maxcount - nv.length - 1, by omega⟩
    have htaken := helement p mem_cons_self (p.behind ++ tailText k.closing rest (q :: parts))
      (left - w.length) (by omega) (stops_tailText hp.behind)
    rw [split_round hw (by omega) (hp.opens (hvalues p mem_cons_self)) htaken, hm]
    split
    · have hm0 : m = 0 := by omega
      exact ⟨_, by rw [hm0]; rfl⟩
    · -- The separator is skipped together with the blanks before the next element.
      obtain ⟨c, tail, hcore, hc⟩ := hq.opens (hvalues q (by simp))
      have hskip : skip (· == 44) (p.behind ++ tailText k.closing rest (q :: parts))
          (left - w.length - p.core.length) 0 =
            .ok (1, ⟨[] ++ (q.core ++ (q.behind ++ tailText k.closing rest parts)),
              left - w.length - p.core.length - (p.behind.length + 1 + q.before.length)⟩) := by
        rw [tailText, hcore]
        exact skip_one hp.behind hq.before (by decide) (by decide) hc.plain.1
          (by simpa using hc.plain.2.1) (by omega)
      have hfirst (l : Nat) : Cursor.first
          ⟨[] ++ (q.core ++ (q.behind ++ tailText k.closing rest parts)), l⟩ = .ok c := by
        rw [hcore]
        rfl
      have hcount (a : α) : maxcount - (nv ++ [a]).length = m := by
        simp
        omega
      rw [hskip, ok_bind, hfirst, ok_bind, if_neg (by simp), placed, take_succ_cons, map_cons,
        append_cons nv _ (map _ _),
        ← hcount (f p (p.behind ++ tailText k.closing rest (q :: parts)))]
      apply ih (w := []) blank_nil (hlater hlaid) (hlater hvalues) (hlater helement)
      · simp
        omega
      · omega
      · simp
        omega

end

end SwApi.Json
