import SwApi.Parameter.Lines

/-! Saving a table and loading the file again. A table comes back as it was if and
only if each of its parameters is one that a line can hold. -/
namespace SwApi.Parameter
open Library List Option

theorem Storable.length_le (h : Storable e) : (lineText e).length ≤ 6144 := by
  have hfits := h.fits
  rw [lineText_length]
  have : lineRoom = 4095 := rfl
  omega

theorem Reading.start_version (rest : Bytes) :
    Reading.start.all (versionLine ++ rest) = (⟨2, 0, []⟩ : Reading).all rest := by
  have hline : Reading.start.all versionLine = some ⟨2, 0, []⟩ := by decide +kernel
  have hsplit := Reading.all_append Reading.start versionLine.dropLast rest
  change Reading.start.all (versionLine.dropLast ++ [10] ++ rest) = _
  rw [append_assoc, singleton_append, hsplit]
  exact congrArg (·.bind fun r => r.all rest) hline

theorem Reading.all_endedLines (hn : ∀ e ∈ es, NameOk e.1) (hs : ∀ e ∈ es, Storable e)
    (r : Reading) (rest : Bytes) : r.all (endedLines (es.map lineText) ++ rest) =
    (r.add es).all rest := by
  induction es generalizing r with
  | nil => rw [Reading.add_nil]; rfl
  | cons e es ih =>
    have hsplit : endedLines ((e :: es).map lineText) ++ rest =
        lineText e ++ 10 :: (endedLines (es.map lineText) ++ rest) := by
      simp [endedLines, flatMap_cons]
    rw [hsplit, Reading.all_append, Reading.all_line (hn e mem_cons_self) (hs e mem_cons_self),
      bind_some, ih (forall_mem_cons.1 hn).2
        (forall_mem_cons.1 hs).2, Reading.add_add]
    rfl

theorem parseLine_total (hdigits : ∀ c ∈ digits, isDigit c = true) (heol : eol = [] ∨ eol = [10]) :
    parseLine (totalTag ++ (digits ++ eol)) =
    some (.total (min (horner digits : Int) (2 ^ 31 - 1))) := by
  have htag : totalTag <+: totalTag ++ (digits ++ eol) := prefix_append _ _
  have hdrop : (totalTag ++ (digits ++ eol)).drop 7 = digits ++ eol := rfl
  have hshort : ¬((totalTag ++ (digits ++ eol)).length < 2 ∨
      (totalTag ++ (digits ++ eol))[0]? = some 0 ∨ (totalTag ++ (digits ++ eol))[1]? = some 0) := by
    rintro (h | h | h)
    · simp only [totalTag, length_append, length_cons] at h
      omega
    · cases h
    · cases h
  have hhead : (totalTag ++ (digits ++ eol)).head? = some 35 := rfl
  have hskip : (totalTag ++ (digits ++ eol)).dropWhile isBlank = totalTag ++ (digits ++ eol) := rfl
  rw [parseLine, if_neg hshort, hskip, parseText, if_pos hhead, if_pos htag, hdrop,
    atoi_digits hdigits heol]

theorem lf_not_mem_total : 10 ∉ totalTag ++ decimal n := by
  rw [mem_append]
  rintro (h | h)
  · exact absurd h (by decide)
  · exact absurd (isDigit_of_mem_decimal h) (by decide)

theorem total_room (hn : n ≤ maxParaNum) : (totalTag ++ decimal n).length < lineRoom := by
  have hparam : maxParaNum = 2048 := rfl
  have hlen : (decimal n).length ≤ 4 := decimal_length (by omega)
  rw [length_append]
  change 7 + (decimal n).length < 4095
  omega

theorem Reading.all_total (hn : n ≤ maxParaNum) (r : Reading) (heol : eol = [] ∨ eol = [10]) :
    r.all (totalTag ++ decimal n ++ eol) = some { r with total := n } := by
  have hread : r.all (totalTag ++ decimal n ++ eol) = r.line (totalTag ++ decimal n ++ eol) := by
    rcases heol with rfl | rfl
    · rw [append_nil]
      exact Reading.all_piece (by simp [totalTag]) lf_not_mem_total (total_room hn).le
    · rw [Reading.all_eq r (by simp), fgets_line lf_not_mem_total (total_room hn)]
      exact bind_fun_some _
  have hdigits : ∀ c ∈ decimal n, isDigit c = true := fun c hc => isDigit_of_mem_decimal hc
  have hparam : maxParaNum = 2048 := rfl
  have hmin : min (n : Int) (2 ^ 31 - 1) = n := by omega
  rw [hread, Reading.line, append_assoc, parseLine_total hdigits heol, horner_decimal, hmin]
  rfl

theorem Reading.all_fileText (hn : ∀ e ∈ es, NameOk e.1) (hs : ∀ e ∈ es, Storable e)
    (hbound : es.length ≤ maxParaNum) :
    Reading.start.all (fileText (es.map lineText)) = some ⟨2, es.length, es⟩ := by
  have htotal := Reading.all_total (n := es.length) hbound ((⟨2, 0, []⟩ : Reading).add es)
    (.inr rfl)
  rw [fileText, Reading.start_version, Reading.all_endedLines hn hs, length_map, totalLine, htotal]
  rfl

theorem valid_iff (es : List (CString × CString)) : (⟨2, es.length, es⟩ : Reading).valid = true ↔
    es ≠ [] := by
  rw [← length_pos_iff]
  simp [Reading.valid]

theorem lookup_offerAll_self (hn : ∀ e ∈ m.entries, NameOk e.1)
    (hbound : m.entries.length ≤ maxParaNum) (h : SortedMap.KeysIn m' m) (k : List Nat) :
    (m'.offerAll ParamMap.accept m.entries).lookup k =
      (m.lookup k).elim (m'.lookup k) fun e => some (((m'.lookup k).map Prod.fst).getD e.1,
      e.2) := by
  have hroom : ∀ m' : ParamMap, ∀ e ∈ m.entries, m'.entries.length < m.entries.length →
      ParamMap.accept m' e.1 = true := by
    intro m' e he hlt
    have hshort := (hn e he).short
    rw [ParamMap.accept, Bool.and_eq_true]
    exact ⟨decide_eq_true (by omega), decide_eq_true hshort⟩
  exact h.lookup_offerAll hroom k

theorem offerAll_empty (hn : ∀ e ∈ m.entries, NameOk e.1) (hbound : m.entries.length ≤ maxParaNum) :
    SortedMap.empty.offerAll ParamMap.accept m.entries = m := by
  apply SortedMap.ext_lookup
  intro k
  rw [lookup_offerAll_self hn hbound fun e he => by cases he]
  cases m.lookup k with
  | none | some e => rfl

theorem ifileLoad_fileText (hn : ∀ e ∈ es, NameOk e.1) (hs : ∀ e ∈ es, Storable e)
    (hbound : es.length ≤ maxParaNum) :
    ifileLoad (some (fileText (es.map lineText))) (some (fileText (es.map lineText))) =
    some es := by
  have hread : ifileLoadFile (some (fileText (es.map lineText))) = some ⟨2, es.length, es⟩ :=
    Reading.all_fileText hn hs hbound
  simp only [ifileLoad, hread, bind_eq_bind, bind_some]
  split
  · rfl
  · rename_i hinvalid
    rw [valid_iff, not_not] at hinvalid
    rw [hinvalid]
    rfl

theorem registerFiles_holds (halloc : ∀ k, alloc k = true) (hfile : d.type = .file)
    (hload : ifileLoad file fileBak = some pairs) :
    ∃ t, registerFiles alloc d file fileBak = some t ∧
      Holds d t (SortedMap.empty.offerAll ParamMap.accept pairs) := by
  obtain ⟨t, hregister, ht⟩ := register_holds halloc hfile pairs
  refine ⟨t, ?_, ht⟩
  rw [registerFiles, hload]
  exact congrArg (·.bind fun r => some r.2) hregister

/-! ### What is lost

A line too long for the reader's buffer is read in pieces. The first piece gives the
name a part of its value, and no other piece is long enough to make up for it. -/

section
variable {r : Reading} {line : Bytes} {lines : List Bytes}

/-- Behind `pairs` the key of `e` has a value that is not the one of `e`. -/
def Misses (e : CString × CString) (pairs : List (CString × CString)) : Prop :=
  ∃ before pieces behind, pairs = before ++ (pieces ++ behind) ∧
    (∃ x ∈ pieces, x.1.fold = e.1.fold) ∧ (∀ x ∈ pieces, x.2.strlen < e.2.strlen) ∧
    ∀ x ∈ behind, x.1.fold ≠ e.1.fold

theorem Misses.append (h : Misses e pairs) (before : List (CString × CString)) :
    Misses e (before ++ pairs) := by
  obtain ⟨before', pieces, behind, rfl, h⟩ := h
  exact ⟨before ++ before', pieces, behind, by rw [append_assoc], h⟩

theorem Misses.lookup_ne (h : Misses e pairs) {m : ParamMap} :
    (m.offerAll ParamMap.accept pairs).lookup e.1.fold ≠ some e := by
  obtain ⟨before, pieces, behind, rfl, hpieces, hshort, hbehind⟩ := h
  intro hlookup
  rw [SortedMap.offerAll_append, SortedMap.offerAll_append,
    SortedMap.lookup_offerAll_of_ne hbehind] at hlookup
  obtain ⟨x, hx, -, hvalue⟩ := SortedMap.lookup_offerAll_value hpieces hlookup
  have hlt := hshort x hx
  rw [hvalue] at hlt
  exact lt_irrefl _ hlt

theorem Reading.all_long (hn : NameOk e.1) (hv : ValueOk e.2)
    (hlong : lineRoom < e.1.strlen + 3 + e.2.strlen) (hwritten : Written e line)
    (hread : r.all (line ++ [10]) = some r') :
    ∃ pieces, r'.pairs = r.pairs ++ pieces ∧ (∃ x ∈ pieces, x.1.fold = e.1.fold) ∧
      ∀ x ∈ pieces, x.2.strlen < e.2.strlen := by
  obtain ⟨n, hcut, rfl⟩ := hwritten
  have hlen := lineText_length (e := e)
  have hroom : lineRoom = 4095 := rfl
  have hname := hn.short
  have hsplit : (lineText e).take n ++ [10] =
      (lineText e).take lineRoom ++ (((lineText e).take n).drop lineRoom ++ [10]) := by
    rw [← append_assoc]
    congr 1
    nth_rewrite 1 [← take_append_drop lineRoom ((lineText e).take n)]
    rw [take_take, Nat.min_eq_left (by omega)]
  have hfirst := parseLine_take hn hv (c := lineRoom) (by omega) (by omega)
  have hwhole : e.1.take lineRoom = e.1 := by
    apply CString.ext
    apply take_of_length_le
    have : e.1.strlen = e.1.bytes.length := rfl
    omega
  have hpiece : ((lineText e).take lineRoom).length = lineRoom := by
    rw [length_take]
    omega
  have hline : 10 ∉ (lineText e).take lineRoom :=
    fun h => lf_not_mem_lineText hn hv (mem_of_mem_take h)
  rw [hwhole] at hfirst
  rw [hsplit, Reading.all_eq r (by simp), fgets_full hline hpiece, Reading.line_pair hfirst,
    bind_some] at hread
  obtain ⟨pieces, hpairs, hshort⟩ := Reading.all_value hread
  refine ⟨(e.1, e.2.take (lineRoom - e.1.strlen - 3)) :: pieces, ?_, ⟨_, mem_cons_self, rfl⟩, ?_⟩
  · rw [hpairs, Reading.add, append_assoc]
    rfl
  · intro x hx
    rcases mem_cons.1 hx with rfl | hx
    · have hvalue : e.2.strlen = e.2.bytes.length := rfl
      have hcut : (e.2.take (lineRoom - e.1.strlen - 3)).strlen =
          min (lineRoom - e.1.strlen - 3) e.2.bytes.length := length_take ..
      simp only [hcut]
      omega
    · have hlt := (hshort x hx).2
      simp only [length_append, length_drop, length_take, length_singleton] at hlt
      omega

/-- If a line is too long, the value of the last such line is not read back. -/
theorem Reading.all_misses (hn : ∀ e ∈ es, NameOk e.1) (hv : ∀ e ∈ es, ValueOk e.2)
    (hsorted : es.Pairwise fun e e' => e.1.fold < e'.1.fold) (hwritten : Forall₂ Written es lines)
    (hlong : ∃ e ∈ es, lineRoom < e.1.strlen + 3 + e.2.strlen) {total : Nat}
    (htotal : total ≤ maxParaNum)
    (hread : r.all (endedLines lines ++ totalLine total) = some r') :
    ∃ e ∈ es, Misses e r'.pairs := by
  induction hwritten generalizing r with
  | nil =>
    obtain ⟨e, he, -⟩ := hlong
    cases he
  | @cons e line es lines hline hlines ih =>
    have hn' := (forall_mem_cons.1 hn).2
    have hv' := (forall_mem_cons.1 hv).2
    rw [pairwise_cons] at hsorted
    have hsplit : endedLines (line :: lines) ++ totalLine total =
        line ++ 10 :: (endedLines lines ++ totalLine total) := by
      simp [endedLines, flatMap_cons]
    rw [hsplit, Reading.all_append] at hread
    obtain ⟨r₁, hfirst, hrest⟩ := bind_eq_some_iff.1 hread
    by_cases hlater : ∃ e ∈ es, lineRoom < e.1.strlen + 3 + e.2.strlen
    · obtain ⟨e', he', hmiss⟩ := ih hn' hv' hsorted.2 hlater hrest
      exact ⟨e', mem_cons_of_mem _ he', hmiss⟩
    · -- the lines behind are read back, and they have other names
      have hlong : lineRoom < e.1.strlen + 3 + e.2.strlen := by
        obtain ⟨e', he', hlt⟩ := hlong
        rcases mem_cons.1 he' with rfl | he'
        · exact hlt
        · exact absurd ⟨e', he', hlt⟩ hlater
      have hs : ∀ e ∈ es, Storable e := fun e' he' =>
        ⟨hv' e' he', not_lt.1 fun hlt => hlater ⟨e', he', hlt⟩⟩
      rw [lines_eq hlines fun e he => (hs e he).length_le, Reading.all_endedLines hn' hs,
        totalLine, Reading.all_total htotal _ (.inr rfl)] at hrest
      obtain ⟨pieces, hpairs, hname, hshort⟩ := Reading.all_long (hn e mem_cons_self)
        (hv e mem_cons_self) hlong hline hfirst
      refine ⟨e, mem_cons_self, r.pairs, pieces, es, ?_, hname, hshort, ?_⟩
      · rw [← some.inj hrest]
        simp only [Reading.add, hpairs, append_assoc]
      · intro x hx heq
        have hlt := hsorted.1 x hx
        rw [heq] at hlt
        exact lt_irrefl _ hlt

end

def SetNamed (_ : Table) : Op → Prop
  | .set name (some _) => NameOk name
  | _ => False

instance (t : Table) (op : Op) : Decidable (SetNamed t op) := by
  unfold SetNamed
  split <;> infer_instance

section
variable {m : ParamMap}

theorem names_offer (hn : ∀ e ∈ m.entries, NameOk e.1) (he : NameOk e.1) :
    ∀ x ∈ (m.offer ParamMap.accept e).entries, NameOk x.1 := by
  intro x hx
  have hlookup := SortedMap.lookup_eq_some_iff.2 ⟨hx, rfl⟩
  by_cases hk : e.1.fold = x.1.fold
  · cases hold : m.lookup x.1.fold with
    | some e' =>
      -- the name was there before
      obtain ⟨b, hb⟩ : ∃ b, (m.offer ParamMap.accept e).lookup x.1.fold = some (e'.1, b) :=
        SortedMap.lookup_offer_name hold
      rw [hlookup] at hb
      rw [congrArg Prod.fst (some.inj hb)]
      exact hn e' (SortedMap.lookup_eq_some_iff.1 hold).1
    | none =>
      unfold SortedMap.offer at hlookup
      split at hlookup
      · rw [SortedMap.lookup_put, if_pos hk.symm, hold] at hlookup
        rw [← congrArg Prod.fst (some.inj hlookup)]
        exact he
      · rw [hold] at hlookup
        cases hlookup
  · rw [SortedMap.lookup_offer_of_ne hk] at hlookup
    exact hn x (SortedMap.lookup_eq_some_iff.1 hlookup).1

theorem run_holds (halloc : ∀ k, alloc k = true) (hfile : d.type = .file)
    (hstart : registerFiles alloc d none none = some t₀)
    (hrun : Run (perform alloc) SetNamed t₀ history t) :
    ∃ m : ParamMap, Holds d t m ∧ ∀ e ∈ m.entries, NameOk e.1 := by
  apply Run.invariant (fun _ t => ∃ m : ParamMap, Holds d t m ∧ ∀ e ∈ m.entries,
    NameOk e.1) _ _ hrun
  · have hload : ifileLoad none none = some [] := rfl
    obtain ⟨t, heq, h⟩ := registerFiles_holds halloc hfile hload
    cases some.inj (hstart.symm.trans heq)
    exact ⟨_, h, fun e he => by cases he⟩
  · rintro history t op r t' ⟨m, h, hn⟩ hop hstep
    cases op with
    | set name value =>
      cases value with
      | none => exact absurd hop id
      | some value =>
        obtain ⟨r', t'', heq, h'⟩ := h.setWithDepot halloc hfile name value (.inl rfl) false
        cases some.inj (hstep.symm.trans heq)
        exact ⟨_, h', names_offer hn hop⟩
    | register | add | setDefault | updateWithDepot | setRealtime | get | delete | deleteAll =>
      exact absurd hop id

theorem Holds.restored_iff (halloc : ∀ k, alloc k = true) (hfile : d.type = .file) (h : Holds d t m)
    (hn : ∀ e ∈ m.entries, NameOk e.1) {file : Bytes} (hsave : ifileSaveFile t d = some file) :
    (∃ t', registerFiles alloc d (some file) (some file) = some t' ∧ t'.pairs = t.pairs) ↔
      ∀ e ∈ m.entries, Storable e := by
  have hbound : m.entries.length ≤ maxParaNum := by
    rw [h.length]
    exact h.wellFormed.bound
  obtain ⟨lines, hwritten, hfile'⟩ := h.ifileSaveFile_eq fun e he => (hn e he).short
  cases some.inj (hsave.symm.trans hfile')
  have hlength := hwritten.length_eq
  constructor
  · rintro ⟨t', hload, hsame⟩
    obtain ⟨pairs, hpairs, -⟩ := bind_eq_some_iff.1 hload
    obtain ⟨t'', heq, h''⟩ := registerFiles_holds halloc hfile hpairs
    cases some.inj (hload.symm.trans heq)
    have hm : SortedMap.empty.offerAll ParamMap.accept pairs = m :=
      ParamMap.pairs_injective (h''.pairs.symm.trans (hsame.trans h.pairs))
    obtain ⟨r, hread, hpairs⟩ := bind_eq_some_iff.1 hpairs
    obtain ⟨added, hadded, hok⟩ := Reading.all_value (r := Reading.start) hread
    have hrepeat : ∃ before, pairs = before ++ r.pairs ∧ ∀ e ∈ before, e ∈ r.pairs := by
      split at hpairs
      · exact ⟨[], (some.inj hpairs).symm, fun e he => by cases he⟩
      · rw [hread] at hpairs
        exact ⟨r.pairs, (some.inj hpairs).symm, fun e he => he⟩
    obtain ⟨before, rfl, hbefore⟩ := hrepeat
    have hv : ∀ e ∈ m.entries, ValueOk e.2 := by
      intro e he
      have hlookup := SortedMap.lookup_eq_some_iff.2 ⟨he, rfl⟩
      rw [← hm] at hlookup
      obtain ⟨x, hx, -, hvalue⟩ := SortedMap.offered_of_lookup hlookup
      rw [← hvalue]
      have hmem : x ∈ r.pairs := (mem_append.1 hx).elim (hbefore x) id
      rw [hadded] at hmem
      exact (hok x hmem).1
    intro e he
    refine ⟨hv e he, ?_⟩
    by_contra hlong
    have hread : (⟨2, 0, []⟩ : Reading).all (endedLines lines ++ totalLine lines.length) =
      some r := by
      rw [← Reading.start_version]
      exact hread
    obtain ⟨e', he', hmiss⟩ := Reading.all_misses hn hv m.sorted hwritten ⟨e, he, not_le.1 hlong⟩
      (by omega) hread
    apply (hmiss.append before).lookup_ne (m := SortedMap.empty)
    rw [hm]
    exact SortedMap.lookup_eq_some_iff.2 ⟨he', rfl⟩
  · intro hs
    rw [lines_eq hwritten fun e he => (hs e he).length_le]
    obtain ⟨t', heq, h'⟩ := registerFiles_holds halloc hfile (ifileLoad_fileText hn hs hbound)
    refine ⟨t', heq, ?_⟩
    rw [h'.pairs, offerAll_empty hn hbound, h.pairs]

/-- A table built by calls of `sw_parameter_set` comes back from its file with the
same names and values if and only if no value contains CR or LF or begins with a
blank, a tab, a colon or an equal sign, and every line fits the buffer of the reader. -/
theorem run_restored_iff {alloc : Alloc} {d : Depot} {t t₀ : Table} {history : List (Op × Bool)}
    (halloc : ∀ k, alloc k = true) (hfile : d.type = .file)
    (hstart : registerFiles alloc d none none = some t₀)
    (hrun : Run (perform alloc) SetNamed t₀ history t) :
    ∃ file fileBak, ifileSave t d = some (file, fileBak) ∧
      ((∃ t', registerFiles alloc d (some file) (some fileBak) = some t' ∧ t'.pairs = t.pairs) ↔
        ∀ name value, (some name, some value) ∈ t.pairs → Storable (name, value)) := by
  obtain ⟨m, h, hn⟩ := run_holds halloc hfile hstart hrun
  obtain ⟨lines, -, hsave⟩ := h.ifileSaveFile_eq fun e he => (hn e he).short
  refine ⟨_, _, ?_, (h.restored_iff halloc hfile hn hsave).trans ?_⟩
  · simp [ifileSave, hsave]
  · rw [h.pairs]
    constructor
    · intro hs name value hmem
      obtain ⟨e, he, heq⟩ := mem_map.1 hmem
      cases heq
      exact hs e he
    · intro hs e he
      exact hs e.1 e.2 (mem_map_of_mem (f := fun e => (some e.1, some e.2)) he)

/-- A colon inside a value is kept, and a name set again in another case is the
same parameter. -/
theorem run_restored_iff_colon : ∃ t₀ history t file fileBak t',
    registerFiles (fun _ => true) (swIfiledepotOpen 1) none none = some t₀ ∧
    exec (perform fun _ => true) SetNamed t₀ [.set ⟨[98], by decide⟩ (some ⟨[49], by decide⟩),
       .set ⟨[65], by decide⟩ (some ⟨[120, 58, 32, 121], by decide⟩),
       .set ⟨[66], by decide⟩ (some .empty)] = some (history, t) ∧
    ifileSave t (swIfiledepotOpen 1) = some (file, fileBak) ∧
    registerFiles (fun _ => true) (swIfiledepotOpen 1) (some file) (some fileBak) = some t' ∧
    t'.pairs = t.pairs ∧ t.pairs = [(some ⟨[65], by decide⟩, some ⟨[120, 58, 32, 121], by decide⟩),
      (some ⟨[98], by decide⟩, some .empty)] := by
  obtain ⟨t₀, hstart, history, t, he, hpairs⟩ : ∃ t₀,
      registerFiles (fun _ => true) (swIfiledepotOpen 1) none none = some t₀ ∧ ∃ history t,
      exec (perform fun _ => true) SetNamed t₀ [.set ⟨[98], by decide⟩ (some ⟨[49], by decide⟩),
         .set ⟨[65], by decide⟩ (some ⟨[120, 58, 32, 121], by decide⟩),
         .set ⟨[66], by decide⟩ (some .empty)] = some (history, t) ∧
      t.pairs = [(some ⟨[65], by decide⟩, some ⟨[120, 58, 32, 121], by decide⟩),
        (some ⟨[98], by decide⟩, some .empty)] := by
    decide +kernel
  obtain ⟨file, fileBak, hsave, hiff⟩ := run_restored_iff (fun _ => rfl) rfl hstart (.of_exec he)
  obtain ⟨t', hload, hsame⟩ := hiff.2 (by
    intro name value hmem
    rcases mem_cons.1 (hpairs ▸ hmem) with hfirst | hsecond
    · cases hfirst
      decide
    · cases mem_singleton.1 hsecond
      decide)
  exact ⟨t₀, history, t, file, fileBak, t', hstart, he, hsave, hload, hsame, hpairs⟩

/-- The blank before a value is taken for a part of the separator. -/
theorem leading_blank_is_lost : ∃ t₀ history t file fileBak t',
    registerFiles (fun _ => true) (swIfiledepotOpen 1) none none = some t₀ ∧
    exec (perform fun _ => true) SetNamed t₀
      [.set ⟨[97], by decide⟩ (some ⟨[32, 49], by decide⟩)] = some (history, t) ∧
    ifileSave t (swIfiledepotOpen 1) = some (file, fileBak) ∧
    registerFiles (fun _ => true) (swIfiledepotOpen 1) (some file) (some fileBak) = some t' ∧
    t.pairs = [(some ⟨[97], by decide⟩, some ⟨[32, 49], by decide⟩)] ∧
    t'.pairs = [(some ⟨[97], by decide⟩, some ⟨[49], by decide⟩)] := by
  simp only [exists_and_left]
  decide +kernel

end

end SwApi.Parameter
