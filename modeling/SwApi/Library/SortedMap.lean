import Mathlib.Data.List.Sort
import Mathlib.Data.List.Perm.Subperm
import Mathlib.Data.List.TakeWhile

/-! Finite maps as lists sorted by a key. Several names may have one key; the map
then keeps the name that came first and the value that came last. -/
namespace SwApi.Library
open List

structure SortedMap {α κ : Type} [LinearOrder κ] (key : α → κ) (β : Type) where
  entries : List (α × β)
  sorted : entries.Pairwise fun e e' => key e.1 < key e'.1

namespace SortedMap
variable {α β κ : Type} [LinearOrder κ] {key : α → κ} {m : SortedMap key β} {pairs : List (α × β)}

theorem ext_entries (h : m.entries = m'.entries) : m = m' := by
  cases m; cases m'; cases h; rfl

instance [DecidableEq α] [DecidableEq β] : DecidableEq (SortedMap key β) :=
  fun m m' => decidable_of_iff (m.entries = m'.entries) ⟨ext_entries, fun h => h ▸ rfl⟩

def empty : SortedMap key β := ⟨[], .nil⟩

def lookup (m : SortedMap key β) (k : κ) : Option (α × β) := m.entries.find? fun e => key e.1 = k

theorem keys_nodup (m : SortedMap key β) : (m.entries.map fun e => key e.1).Nodup :=
  (pairwise_map.2 m.sorted).imp ne_of_lt

theorem eq_of_key (he : e ∈ m.entries) (he' : e' ∈ m.entries) (h : key e.1 = key e'.1) : e = e' :=
  inj_on_of_nodup_map m.keys_nodup he he' h

theorem lookup_eq_none_iff : m.lookup k = none ↔ ∀ e ∈ m.entries, key e.1 ≠ k := by
  simp [lookup, find?_eq_none]

theorem lookup_eq_some_iff : m.lookup k = some e ↔ e ∈ m.entries ∧ key e.1 = k := by
  constructor
  · intro h
    exact ⟨mem_of_find?_eq_some h, by simpa using find?_some h⟩
  · rintro ⟨he, hk⟩
    cases h : m.lookup k with
    | none => exact absurd hk (lookup_eq_none_iff.1 h e he)
    | some e' =>
      have hfound : e' ∈ m.entries := mem_of_find?_eq_some h
      have hkey : key e'.1 = k := by simpa using find?_some h
      rw [eq_of_key hfound he (hkey.trans hk.symm)]

theorem eq_of_sorted {l l' : List (α × β)} (h : l.Pairwise fun e e' => key e.1 < key e'.1)
    (h' : l'.Pairwise fun e e' => key e.1 < key e'.1) (hmem : ∀ e, e ∈ l ↔ e ∈ l') : l = l' := by
  have hanti : Std.Antisymm fun e e' : α × β => key e.1 < key e'.1 :=
    ⟨fun _ _ hlt hgt => absurd hlt hgt.asymm⟩
  have hirrefl : Std.Irrefl fun e e' : α × β => key e.1 < key e'.1 := ⟨fun _ => lt_irrefl _⟩
  exact h.eq_of_mem_iff h' hmem

theorem ext_lookup (h : ∀ k, m.lookup k = m'.lookup k) : m = m' := by
  refine ext_entries (eq_of_sorted m.sorted m'.sorted fun e => ?_)
  have hk := h (key e.1)
  constructor
  · intro he
    exact (lookup_eq_some_iff.1 (hk ▸ lookup_eq_some_iff.2 ⟨he, rfl⟩)).1
  · intro he
    exact (lookup_eq_some_iff.1 (hk.symm ▸ lookup_eq_some_iff.2 ⟨he, rfl⟩)).1

def replace (m : SortedMap key β) (a : α) (b : β) : SortedMap key β where
  entries := m.entries.map fun e => if key e.1 = key a then (e.1, b) else e
  sorted := by
    apply pairwise_map.2
    apply m.sorted.imp
    intro e e' h
    split <;> split <;> exact h

theorem le_of_mem_dropWhile (h : pairs.Pairwise fun e e' => key e.1 < key e'.1)
    (he : e ∈ pairs.dropWhile fun e => key e.1 < k) : k ≤ key e.1 := by
  induction pairs with
  | nil => cases he
  | cons head rest ih =>
    rw [pairwise_cons] at h
    rw [dropWhile_cons] at he
    split at he
    · exact ih h.2 he
    · rename_i hhead
      have hle : k ≤ key head.1 := not_lt.1 fun hlt => hhead (decide_eq_true hlt)
      rcases mem_cons.1 he with rfl | he
      · exact hle
      · exact hle.trans (h.1 e he).le

def insert (m : SortedMap key β) (a : α) (b : β) (hnew : m.lookup (key a) = none) :
    SortedMap key β where
  entries := m.entries.takeWhile (fun e => key e.1 < key a) ++
    (a, b) :: m.entries.dropWhile fun e => key e.1 < key a
  sorted := by
    have hbefore : ∀ e ∈ m.entries.takeWhile (fun e => key e.1 < key a), key e.1 < key a := by
      intro e he
      simpa using mem_takeWhile_imp he
    have hbehind : ∀ e ∈ m.entries.dropWhile (fun e => key e.1 < key a), key a < key e.1 := by
      intro e he
      have hmem : e ∈ m.entries := (dropWhile_sublist _).subset he
      exact lt_of_le_of_ne (le_of_mem_dropWhile m.sorted he)
        (lookup_eq_none_iff.1 hnew e hmem).symm
    have hsplit := m.sorted
    rw [← takeWhile_append_dropWhile (p := fun e => key e.1 < key a) (l := m.entries),
      pairwise_append] at hsplit
    rw [pairwise_append, pairwise_cons]
    refine ⟨hsplit.1, ⟨hbehind, hsplit.2.1⟩, ?_⟩
    intro e he e' he'
    rcases mem_cons.1 he' with rfl | he'
    · exact hbefore e he
    · exact hsplit.2.2 e he e' he'

def put (m : SortedMap key β) (a : α) (b : β) : SortedMap key β :=
  if hnew : m.lookup (key a) = none then m.insert a b hnew else m.replace a b

theorem mem_insert : e ∈ (m.insert a b hnew).entries ↔ e = (a, b) ∨ e ∈ m.entries := by
  rw [insert, mem_append, mem_cons]
  nth_rewrite 3 [← takeWhile_append_dropWhile (p := fun e => key e.1 < key a) (l := m.entries)]
  rw [mem_append]
  tauto

theorem lookup_replace : (m.replace a b).lookup k =
    (m.lookup k).map fun e => if key e.1 = key a then (e.1, b) else e := by
  rw [lookup, replace, find?_map]
  have hpred : (fun e : α × β => decide (key e.1 = k)) ∘
      (fun e => if key e.1 = key a then (e.1, b) else e) = fun e => decide (key e.1 = k) := by
    funext e
    simp only [Function.comp_apply]
    split <;> rfl
  rw [hpred]
  rfl

theorem lookup_put : (m.put a b).lookup k =
    if k = key a then some (((m.lookup k).map Prod.fst).getD a, b) else m.lookup k := by
  unfold put
  split
  · rename_i hnew
    split
    · rename_i hk
      subst hk
      rw [hnew, lookup_eq_some_iff, mem_insert]
      exact ⟨.inl rfl, rfl⟩
    · rename_i hk
      cases h : m.lookup k with
      | none =>
        rw [lookup_eq_none_iff] at h ⊢
        intro e he
        rcases mem_insert.1 he with rfl | he
        · exact fun heq => hk heq.symm
        · exact h e he
      | some e =>
        rw [lookup_eq_some_iff] at h ⊢
        exact ⟨mem_insert.2 (.inr h.1), h.2⟩
  · rename_i hold
    rw [lookup_replace]
    split
    · rename_i hk
      subst hk
      obtain ⟨e, he⟩ := Option.ne_none_iff_exists'.1 hold
      rw [he]
      simp [(lookup_eq_some_iff.1 he).2]
    · rename_i hk
      cases h : m.lookup k with
      | none => rfl
      | some e =>
        have hne : key e.1 ≠ key a := by
          rw [(lookup_eq_some_iff.1 h).2]
          exact hk
        simp [hne]

/-- `replace` changes the one entry with the key. -/
theorem replace_eq (hi : m.entries[i]? = some e) (hk : key e.1 = key a) :
    (m.replace a b).entries = m.entries.set i (e.1, b) := by
  obtain ⟨hlt, he⟩ := List.getElem?_eq_some_iff.1 hi
  apply ext_getElem
  · simp [replace]
  intro j hj hj'
  have hjm : j < m.entries.length := by simpa [replace] using hj
  simp only [replace, getElem_map, getElem_set]
  by_cases hij : i = j
  · subst hij
    rw [if_pos rfl, he, if_pos hk]
  · have hne : key m.entries[j].1 ≠ key a := by
      rw [← hk]
      intro heq
      have hsame := eq_of_key (getElem_mem hjm) (he ▸ getElem_mem hlt) heq
      have hkeys := pairwise_iff_getElem.1 m.sorted
      rcases Nat.lt_or_gt_of_ne hij with h | h
      · exact absurd (hkeys i j hlt hjm h) (by rw [he, heq]; exact lt_irrefl _)
      · exact absurd (hkeys j i hjm hlt h) (by rw [he, heq]; exact lt_irrefl _)
    rw [if_neg hij, if_neg hne]

/-- An insertion anywhere that leaves the list sorted is `insert`. -/
theorem insert_eq (i : Nat) (h : (m.entries.take i ++ (a, b) :: m.entries.drop i).Pairwise
      fun e e' => key e.1 < key e'.1) :
    (m.insert a b hnew).entries = m.entries.take i ++ (a, b) :: m.entries.drop i := by
  refine eq_of_sorted (m.insert a b hnew).sorted h fun e => ?_
  rw [mem_insert, mem_append, mem_cons]
  nth_rewrite 1 [← take_append_drop i m.entries]
  rw [mem_append]
  tauto

/-! ### Offers

A name that is there gets the value offered; a new one is taken if there is room
for it. -/

section
variable (accept : SortedMap key β → α → Bool)

def offer (m : SortedMap key β) (e : α × β) : SortedMap key β :=
  if m.lookup (key e.1) ≠ none ∨ accept m e.1 then m.put e.1 e.2 else m

def offerAll (m : SortedMap key β) (pairs : List (α × β)) : SortedMap key β :=
  pairs.foldl (offer accept) m

variable {accept}

theorem offerAll_append (pairs' : List (α × β)) : offerAll accept m (pairs ++ pairs') =
    offerAll accept (offerAll accept m pairs) pairs' :=
  foldl_append

theorem lookup_offer_of_ne (h : key e.1 ≠ k) : (offer accept m e).lookup k = m.lookup k := by
  unfold offer
  split
  · rw [lookup_put, if_neg h.symm]
  · rfl

theorem lookup_offer_self (h : (offer accept m e).lookup (key e.1) = some e') : e'.2 = e.2 := by
  unfold offer at h
  split at h
  · rw [lookup_put, if_pos rfl] at h
    rw [← Option.some.inj h]
  · rename_i hrefused
    rw [not_or, not_not] at hrefused
    rw [hrefused.1] at h
    cases h

theorem lookup_offer_name (h : m.lookup k = some e') :
    ∃ b, (offer accept m e).lookup k = some (e'.1, b) := by
  by_cases hk : key e.1 = k
  · subst hk
    refine ⟨e.2, ?_⟩
    rw [offer, if_pos (.inl (by rw [h]; exact Option.some_ne_none e')), lookup_put, if_pos rfl, h]
    rfl
  · exact ⟨e'.2, by rw [lookup_offer_of_ne hk, h]⟩

theorem lookup_offerAll_of_ne (h : ∀ e ∈ pairs, key e.1 ≠ k) :
    (offerAll accept m pairs).lookup k = m.lookup k := by
  induction pairs generalizing m with
  | nil => rfl
  | cons e rest ih =>
    calc (offerAll accept (offer accept m e) rest).lookup k
        = (offer accept m e).lookup k := ih (forall_mem_cons.1 h).2
      _ = m.lookup k := lookup_offer_of_ne (h e mem_cons_self)

theorem lookup_offerAll_value (hmem : ∃ e ∈ pairs, key e.1 = k)
    (h : (offerAll accept m pairs).lookup k = some e') : ∃ e ∈ pairs, key e.1 = k ∧ e.2 = e'.2 := by
  induction pairs generalizing m with
  | nil =>
    obtain ⟨e, he, -⟩ := hmem
    cases he
  | cons e rest ih =>
    by_cases hrest : ∃ e ∈ rest, key e.1 = k
    · obtain ⟨e'', he'', hk, hvalue⟩ := ih hrest h
      exact ⟨e'', mem_cons_of_mem _ he'', hk, hvalue⟩
    · -- the first pair is the last one with the key
      have hne : ∀ e ∈ rest, key e.1 ≠ k := fun e he hk => hrest ⟨e, he, hk⟩
      have hk : key e.1 = k := by
        obtain ⟨e'', he'', hk⟩ := hmem
        rcases mem_cons.1 he'' with rfl | he''
        · exact hk
        · exact absurd hk (hne e'' he'')
      subst hk
      have hlast : (offer accept m e).lookup (key e.1) = some e' :=
        (lookup_offerAll_of_ne hne).symm.trans h
      exact ⟨e, mem_cons_self, rfl, (lookup_offer_self hlast).symm⟩

theorem offered_of_lookup (h : (offerAll accept empty pairs).lookup k = some e') :
    ∃ e ∈ pairs, key e.1 = k ∧ e.2 = e'.2 := by
  apply lookup_offerAll_value _ h
  by_contra hnone
  have hne : ∀ e ∈ pairs, key e.1 ≠ k := fun e he hk => hnone ⟨e, he, hk⟩
  rw [lookup_offerAll_of_ne hne] at h
  cases h

def KeysIn (m m' : SortedMap key β) : Prop := ∀ e ∈ m.entries, ∃ e' ∈ m'.entries, key e'.1 = key e.1

/-- A map without one of the keys of `m'` is the smaller one. -/
theorem KeysIn.length_lt (h : KeysIn m m') (he : e ∈ m'.entries)
    (hnew : m.lookup (key e.1) = none) : m.entries.length < m'.entries.length := by
  have hnodup : (key e.1 :: m.entries.map fun e => key e.1).Nodup := by
    refine nodup_cons.2 ⟨?_, m.keys_nodup⟩
    intro hmem
    obtain ⟨e', he', hk⟩ := mem_map.1 hmem
    exact lookup_eq_none_iff.1 hnew e' he' hk
  have hsub : (key e.1 :: m.entries.map fun e => key e.1) ⊆ m'.entries.map fun e => key e.1 := by
    intro k hk
    rcases mem_cons.1 hk with rfl | hk
    · exact mem_map_of_mem he
    · obtain ⟨e', he', rfl⟩ := mem_map.1 hk
      obtain ⟨e'', he'', hk⟩ := h e' he'
      exact mem_map.2 ⟨e'', he'', hk⟩
  have hlen := (hnodup.subperm hsub).length_le
  simp only [length_cons, length_map] at hlen
  exact hlen

theorem KeysIn.offer (h : KeysIn m m') (he : e ∈ m'.entries) : KeysIn (offer accept m e) m' := by
  intro e' he'
  by_cases hk : key e.1 = key e'.1
  · exact ⟨e, he, hk⟩
  · have hlookup : (SortedMap.offer accept m e).lookup (key e'.1) = some e' :=
      lookup_eq_some_iff.2 ⟨he', rfl⟩
    rw [lookup_offer_of_ne hk] at hlookup
    exact h e' (lookup_eq_some_iff.1 hlookup).1

section
variable {m m' : SortedMap key β} (h : KeysIn m m') (hroom : ∀ (m : SortedMap key β),
    ∀ e ∈ m'.entries, m.entries.length < m'.entries.length → accept m e.1 = true)
include h hroom

theorem KeysIn.lookup_offerAll_sublist
    (hpairs : pairs.Pairwise fun e e' => key e.1 < key e'.1) (hsub : ∀ e ∈ pairs, e ∈ m'.entries) :
    (offerAll accept m pairs).lookup k = (pairs.find? fun e => key e.1 = k).elim (m.lookup k)
      fun e => some (((m.lookup k).map Prod.fst).getD e.1, e.2) := by
  induction pairs generalizing m with
  | nil => rfl
  | cons e rest ih =>
    have he := hsub e mem_cons_self
    have htaken : SortedMap.offer accept m e = m.put e.1 e.2 := by
      apply if_pos
      by_cases hnew : m.lookup (key e.1) = none
      · exact .inr (hroom m e he (h.length_lt he hnew))
      · exact .inl hnew
    rw [pairwise_cons] at hpairs
    have hkeys : KeysIn (SortedMap.offer accept m e) m' := h.offer he
    have hrest := ih hkeys hpairs.2 (forall_mem_cons.1 hsub).2
    have hput : (SortedMap.offer accept m e).lookup k =
        if k = key e.1 then some (((m.lookup k).map Prod.fst).getD e.1, e.2) else m.lookup k := by
      rw [htaken, lookup_put]
    rw [find?_cons]
    change (offerAll accept (SortedMap.offer accept m e) rest).lookup k = _
    by_cases hk : key e.1 = k
    · have hne : ∀ e' ∈ rest, key e'.1 ≠ k := fun e' he' heq =>
        absurd (hpairs.1 e' he') (by rw [hk, heq]; exact lt_irrefl k)
      rw [lookup_offerAll_of_ne hne, hput, if_pos hk.symm, decide_eq_true hk]
      rfl
    · rw [hrest, hput, if_neg (Ne.symm hk), decide_eq_false hk]

/-- Entries of `m'` are all taken as long as there is room for as many as `m'` has. -/
theorem KeysIn.lookup_offerAll (k : κ) :
    (offerAll accept m m'.entries).lookup k =
      (m'.lookup k).elim (m.lookup k) fun e => some (((m.lookup k).map Prod.fst).getD e.1, e.2) :=
  h.lookup_offerAll_sublist hroom m'.sorted fun _ he => he

end

end

end SortedMap
end SwApi.Library
