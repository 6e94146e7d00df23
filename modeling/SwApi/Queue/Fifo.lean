import SwApi.Library.Lists
import SwApi.Queue.Model

/-! What a priority queue is for: a list of bounded FIFOs, the first one served first. -/
namespace SwApi.Queue
open Library RingBuffer Os List Option

structure Fifo (α : Type) where
  capacity : Nat
  items : List α
  bounded : items.length ≤ capacity

namespace Fifo

def empty (capacity : Nat) : Fifo α := ⟨capacity, [], by simp⟩

/-- A post to a full FIFO discards the oldest element. -/
def post (f : Fifo α) (e : α) : Fifo α :=
  if h : f.items.length < f.capacity then
    ⟨f.capacity, f.items ++ [e], by simp only [length_append, length_singleton]; omega⟩
  else ⟨f.capacity, (f.items ++ [e]).tail, by simpa using f.bounded⟩

def clear (f : Fifo α) : Fifo α := empty f.capacity

def rest (f : Fifo α) : Fifo α :=
  ⟨f.capacity, f.items.tail, by have := f.bounded; simp only [length_tail]; omega⟩

@[simp] theorem post_capacity (f : Fifo α) (e : α) : (f.post e).capacity = f.capacity := by
  unfold post
  split <;> rfl

@[simp] theorem clear_items {f : Fifo α} : f.clear.items = [] := rfl
@[simp] theorem clear_capacity (f : Fifo α) : f.clear.capacity = f.capacity := rfl
@[simp] theorem rest_items {f : Fifo α} : f.rest.items = f.items.tail := rfl
@[simp] theorem rest_capacity (f : Fifo α) : f.rest.capacity = f.capacity := rfl

theorem post_items_of_room {f : Fifo α} (h : f.items.length < f.capacity) (e : α) :
    (f.post e).items = f.items ++ [e] := by
  rw [post, dif_pos h]

end Fifo

def firstOf : List (Fifo α) → Option (Nat × α)
  | [] => none
  | f :: fs =>
      match f.items with
      | e :: _ => some (0, e)
      | [] => (firstOf fs).map fun (i, e) => (i + 1, e)

theorem firstOf_eq_none_iff : firstOf fs = none ↔ ∀ f ∈ fs, f.items = [] := by
  induction fs with
  | nil => simp [firstOf]
  | cons f fs ih =>
    unfold firstOf
    cases hf : f.items with
    | nil => simp [hf, ih]
    | cons e rest => simp [hf]

theorem firstOf_eq_some (h : firstOf fs = some (i, e)) :
    ∃ f, fs[i]? = some f ∧ f.items = e :: f.rest.items := by
  induction fs generalizing i with
  | nil => cases h
  | cons f fs ih =>
    unfold firstOf at h
    split at h
    · rename_i hf
      cases h
      exact ⟨f, rfl, by simp [hf]⟩
    · obtain ⟨⟨j, e'⟩, hj, heq⟩ := map_eq_some_iff.1 h
      cases heq
      exact ih hj

structure Represents (l : Level esize) (f : Fifo (Element esize)) : Prop where
  tsize : l.tsize = esize * (f.capacity + 1)
  ring : Holds l.elements (f.capacity + 1) l.read l.write f.items

section
variable {f : Fifo (Element esize)}

theorem Represents.signal (h : Represents l f) (s : Signal) :
    Represents { l with writeSignal := s } f :=
  ⟨h.tsize, h.ring⟩

section
variable (h : Represents l f) (hw : 0 < esize)
include h hw

theorem Represents.contents_eq : l.contents = f.items :=
  h.ring.contents_eq hw

theorem Represents.isEmpty_iff : l.read = l.write ↔ f.items = [] :=
  h.ring.read_eq_write_iff hw

theorem Represents.isFull_iff :
    l.isFull = true ↔ f.items.length = f.capacity := by
  unfold Level.isFull Level.next
  rw [beq_iff_eq, h.tsize, h.ring.next_write_eq_iff hw]
  omega

theorem Represents.put_of_room
    (hroom : f.items.length < f.capacity) (e : Element esize) :
    ∃ l', l.put e = some l' ∧ Represents l' (f.post e) ∧ l'.fullCover = l.fullCover := by
  have hfull : ¬l.next l.write = l.read := by
    intro hnext
    have := (h.isFull_iff hw).1 (beq_iff_eq.2 hnext)
    omega
  obtain ⟨elements, hstore, hring⟩ := h.ring.push hw (by omega) e
  refine ⟨{ l with elements, write := l.next l.write }, ?_, ⟨?_, ?_⟩, rfl⟩
  · simp [Level.put, hstore, hfull]
  · simpa using h.tsize
  · rw [Fifo.post_capacity, Fifo.post_items_of_room hroom]
    simpa [Level.next, h.tsize] using hring

theorem Represents.put_of_cover
    (hcover : l.fullCover = true) (e : Element esize) :
    ∃ l', l.put e = some l' ∧ Represents l' (f.post e) ∧ l'.fullCover = l.fullCover := by
  by_cases hroom : f.items.length < f.capacity
  · exact h.put_of_room hw hroom e
  · have hfull : f.items.length = f.capacity := by
      have := f.bounded
      omega
    have hnext : l.next l.write = l.read := beq_iff_eq.1 ((h.isFull_iff hw).2 hfull)
    obtain ⟨elements, hstore, hring⟩ := h.ring.push_cover hw (by omega) e
    refine ⟨{ l with elements, write := l.read, read := l.next l.read }, ?_, ⟨?_, ?_⟩, rfl⟩
    · simp [Level.put, hstore, hnext, hcover]
    · simpa using h.tsize
    · rw [Fifo.post_capacity, Fifo.post, dif_neg (by omega)]
      simpa [Level.next, h.tsize] using hring

theorem Represents.put_of_full
    (hcover : l.fullCover = false) (hfull : f.items.length = f.capacity) (e : Element esize) :
    ∃ l', l.put e = some l' ∧ Represents l' f.clear ∧ l'.fullCover = l.fullCover := by
  obtain ⟨elements, hstore, hnext, hring⟩ := h.ring.push_full hw (by omega) e
  rw [← h.tsize] at hnext
  refine ⟨{ l with elements, write := l.read }, ?_, ⟨h.tsize, hring⟩, rfl⟩
  simp [Level.put, Level.next, hstore, hnext, hcover]

theorem Represents.take (hne : f.items = e :: f.rest.items) :
    load l.elements esize l.read = some e ∧ Represents l.advance f.rest := by
  have hring := h.ring
  rw [hne] at hring
  have hpop := hring.pop hw
  refine ⟨hpop.1, h.tsize, ?_⟩
  simpa [Level.advance, Level.next, h.tsize] using hpop.2

end

theorem Represents.clear (h : Represents l f) : Represents l.clear f.clear :=
  ⟨h.tsize, Holds.empty h.ring.size (Nat.succ_pos _)⟩

end

abbrev RepresentsAll (levels : List (Level esize)) (fs : List (Fifo (Element esize))) : Prop :=
  Forall₂ Represents levels fs

section
variable {fs : List (Fifo (Element esize))}

section
variable (h : RepresentsAll levels fs)
include h

theorem RepresentsAll.contents_eq (hw : 0 < esize) :
    levels.map Level.contents = fs.map Fifo.items := by
  induction h with
  | nil => rfl
  | cons hl _ ih => rw [map_cons, map_cons, hl.contents_eq hw, ih]

theorem RepresentsAll.signals (stray : Stray) :
    RepresentsAll (levels.mapIdx fun i l => { l with writeSignal := stray i l.writeSignal })
    fs := by
  induction h generalizing stray with
  | nil => exact .nil
  | cons hl _ ih =>
    rw [mapIdx_cons]
    exact .cons (hl.signal _) (ih fun i => stray (i + 1))

theorem readScan_got (hw : 0 < esize) (g : Nat × Element esize)
    (i : Nat) : ∃ isEmpty, readScan ⟨some g, true⟩ i levels = some (⟨some g, isEmpty⟩, levels) ∧
      (isEmpty = true ↔ ∀ f ∈ fs, f.items = []) := by
  induction h generalizing i with
  | nil => exact ⟨true, rfl, by simp⟩
  | @cons l f levels fs hl _ ih =>
    have hempty := hl.isEmpty_iff hw
    by_cases hf : f.items = []
    · obtain ⟨isEmpty, hscan, hall⟩ := ih (i + 1)
      refine ⟨isEmpty, ?_, by simp [hf, hall]⟩
      simp [readScan, hempty.2 hf, hscan]
    · refine ⟨false, ?_, by simp [hf]⟩
      simp [readScan, mt hempty.1 hf]

theorem readScan_none (hw : 0 < esize) (hnone : firstOf fs = none) (i : Nat) :
    readScan ⟨none, true⟩ i levels = some (⟨none, true⟩, levels) := by
  rw [firstOf_eq_none_iff] at hnone
  induction h generalizing i with
  | nil => rfl
  | @cons l f levels fs hl _ ih =>
    have hlf : l.read = l.write := (hl.isEmpty_iff hw).2 (hnone f (by simp))
    have hrest := ih (fun f hf => hnone f (by simp [hf])) (i + 1)
    simp [readScan, hlf, hrest]

theorem readScan_first (hw : 0 < esize)
    (hsome : firstOf fs = some (k, e)) (i : Nat) :
    ∃ (isEmpty : Bool) (f : Fifo (Element esize)) (l : Level esize),
    readScan ⟨none, true⟩ i levels =
        some (⟨some (i + k, e), isEmpty⟩, levels.set k l.advance) ∧ fs[k]? = some f ∧
      levels[k]? = some l ∧ (isEmpty = true ↔ ∀ f' ∈ fs.set k f.rest, f'.items = []) := by
  induction h generalizing i k with
  | nil => cases hsome
  | @cons l f levels fs hl hrest ih =>
    unfold firstOf at hsome
    split at hsome
    · rename_i tail hf
      cases hsome
      have hne : l.read ≠ l.write := mt (hl.isEmpty_iff hw).1 (by simp [hf])
      have htake := hl.take hw (e := e) (by simp [hf])
      have hempty := htake.2.isEmpty_iff hw
      by_cases hleft : f.items.tail = []
      · obtain ⟨isEmpty, hscan, hall⟩ := readScan_got hrest hw (i, e) (i + 1)
        refine ⟨isEmpty, f, l, ?_, rfl, rfl, by simpa [hleft] using hall⟩
        have hend : l.advance.read = l.advance.write := hempty.2 hleft
        simp [readScan, hne, htake.1, hend, hscan]
      · refine ⟨false, f, l, ?_, rfl, rfl, by simp [hleft]⟩
        have hend : ¬l.advance.read = l.advance.write := mt hempty.1 hleft
        simp [readScan, hne, htake.1, hend]
    · rename_i hf
      obtain ⟨⟨j, e'⟩, hj, heq⟩ := map_eq_some_iff.1 hsome
      cases heq
      obtain ⟨isEmpty, f', l', hscan, hf', hl', hall⟩ := ih hj (i + 1)
      refine ⟨isEmpty, f', l', ?_, hf', hl', ?_⟩
      · have hlf : l.read = l.write := (hl.isEmpty_iff hw).2 hf
        simp [readScan, hlf, hscan, Nat.add_assoc, Nat.add_comm 1]
      · simpa [hf] using hall

end

end

/-- The queue is made of rings that hold `fs`, and its levels cover as `covers` says. -/
structure Rings (q : SwQueue esize) (covers : List Bool) (fs : List (Fifo (Element esize))) :
    Prop where
  represents : RepresentsAll q.levels fs
  covers : q.levels.map Level.fullCover = covers

section
variable {q : SwQueue esize} {covers : List Bool}

theorem Rings.set (h : Rings q covers fs) (hl : q.levels[i]? = some l) (hc : Represents l' c)
    (hsame : l'.fullCover = l.fullCover) :
    Rings { q with levels := q.levels.set i l' } covers (fs.set i c) := by
  refine ⟨forall₂_set h.represents hc i, ?_⟩
  rw [map_set, hsame, ← h.covers]
  apply set_eq_self
  rw [getElem?_map, hl]
  rfl

theorem SwQueue.onLevel_eq_some (hl : q.levels[i]? = some l) (hf : f l = some l') :
    q.onLevel i f = some { q with levels := q.levels.set i l' } := by
  simp [SwQueue.onLevel, hl, hf]

theorem Rings.onLevel (h : Rings q covers fs) (hq : q.onLevel i f = some q') :
    ∃ l l' c, q.levels[i]? = some l ∧ f l = some l' ∧ fs[i]? = some c ∧ Represents l c ∧
      covers[i]? = some l.fullCover ∧
      ∀ c', Represents l' c' → l'.fullCover = l.fullCover → Rings q' covers (fs.set i c') := by
  obtain ⟨l, hl, hq⟩ := bind_eq_some_iff.1 hq
  obtain ⟨l', hl', hq⟩ := bind_eq_some_iff.1 hq
  cases hq
  obtain ⟨c, hc, hlc⟩ := forall₂_getElem? h.represents hl
  have hcover : covers[i]? = some l.fullCover := by rw [← h.covers, getElem?_map, hl]; rfl
  exact ⟨l, l', c, hl, hl', hc, hlc, hcover, fun c' hc' hsame => h.set hl hc' hsame⟩

theorem Rings.onSignal (h : Rings q covers fs) (hq : q.onLevel i f = some q')
    (hf : ∀ l l', f l = some l' → ∃ s, l' = { l with writeSignal := s }) : Rings q' covers fs := by
  obtain ⟨l, l', c, -, hl', hc, hlc, -, hrings⟩ := h.onLevel hq
  obtain ⟨s, rfl⟩ := hf l l' hl'
  have := hrings c (hlc.signal s) rfl
  rwa [set_eq_self hc] at this

theorem Rings.readSignal (h : Rings q covers fs) (s : Signal) :
    Rings { q with readSignal := s } covers fs :=
  ⟨h.represents, h.covers⟩

/-- The section of a read starts its loop with `is_empty` false; the first
round overwrites it. -/
theorem readTake_eq (hq : q.levels ≠ []) : readTake q =
    (readScan ⟨none, true⟩ 0 q.levels).map fun r => (r.1, { q with levels := r.2 }) := by
  unfold readTake
  cases hl : q.levels with
  | nil => exact absurd hl hq
  | cons l rest =>
    rw [map_eq_bind]
    rfl

@[simp] theorem readRegive_levels : (readRegive q t).levels = q.levels := by
  unfold readRegive
  split <;> rfl

theorem Rings.readTake_none (h : Rings q covers fs) (hw : 0 < esize) (hlevels : q.levels ≠ [])
    (hfirst : firstOf fs = none) : readTake q = some (⟨none, true⟩, q) := by
  rw [readTake_eq hlevels, readScan_none h.represents hw hfirst]
  rfl

theorem Rings.readTake_first (h : Rings q covers fs) (hw : 0 < esize)
    (hfirst : firstOf fs = some (k, e)) :
    ∃ isEmpty l c, readTake q = some (⟨some (k, e), isEmpty⟩,
    { q with levels := q.levels.set k l.advance }) ∧
      q.levels[k]? = some l ∧ fs[k]? = some c ∧ Represents l c ∧ c.items = e :: c.rest.items ∧
      (isEmpty = true ↔ ∀ f ∈ fs.set k c.rest, f.items = []) := by
  obtain ⟨isEmpty, c, l, hscan, hc, hl, hempty⟩ := readScan_first h.represents hw hfirst 0
  obtain ⟨c', hc', hlc⟩ := forall₂_getElem? h.represents hl
  cases some.inj (hc.symm.trans hc')
  obtain ⟨c', hc', hne⟩ := firstOf_eq_some hfirst
  cases some.inj (hc.symm.trans hc')
  refine ⟨isEmpty, l, c, ?_, hl, hc, hlc, hne, hempty⟩
  rw [readTake_eq (by rintro hnil; simp [hnil] at hl), hscan, Nat.zero_add]
  rfl

theorem Rings.clearGive (h : Rings q covers fs) (stray : Stray) :
    Rings (clearGive q stray) covers fs := by
  apply Rings.mk
  · exact h.represents.signals stray
  · rw [← h.covers]
    apply ext_getElem?
    intro i
    simp [Queue.clearGive, getElem?_mapIdx, Function.comp_def]

def fifosOf (esize : Nat) (config : List (Int × Bool)) : List (Fifo (Element esize)) :=
  config.map fun c => .empty (c.1 - 1).toNat

/-- The rings asked for are not empty, and their sizes in bytes fit 32 bits. -/
def SizesFit (esize : Nat) (config : List (Int × Bool)) : Prop :=
  ∀ c ∈ config, 1 ≤ c.1 ∧ esize * c.1 < 2^32
  deriving Decidable

theorem esize_pos_of_create (hq : swQueueCreateWithPriority esize config = some q) : 0 < esize := by
  unfold swQueueCreateWithPriority at hq
  split at hq
  · cases hq
  · omega

theorem represents_newLevel {qsize : Int} (hsize : 1 ≤ qsize ∧ esize * qsize < 2^32) :
    Represents (newLevel esize qsize cover) (.empty (qsize - 1).toNat) := by
  obtain ⟨n, hn⟩ := Int.le.dest hsize.1
  have htsize : (newLevel esize qsize cover).tsize = esize * (n + 1) := by
    have hmod : esize * qsize % 2^32 = ((esize * (n + 1) : Nat) : Int) := by
      rw [Int.emod_eq_of_lt (by subst hn; exact_mod_cast Nat.zero_le _) hsize.2, ← hn]
      push_cast
      rw [Int.add_comm]
    simp only [newLevel, hmod, Int.toNat_natCast]
  have hcap : (qsize - 1).toNat = n := by omega
  rw [hcap]
  exact ⟨htsize, Holds.empty ((length_replicate ..).trans htsize) (Nat.succ_pos n)⟩

theorem rings_of_create (hsizes : SizesFit esize config)
    (hq : swQueueCreateWithPriority esize config = some q) :
    Rings q (config.map Prod.snd) (fifosOf esize config) := by
  unfold swQueueCreateWithPriority at hq
  split at hq
  · cases hq
  · cases hq
    apply Rings.mk
    · rw [RepresentsAll, fifosOf, forall₂_map_left_iff, forall₂_map_right_iff,
        forall₂_same]
      intro c hc
      exact represents_newLevel (hsizes c hc)
    · rw [List.map_map]
      rfl

end

end SwApi.Queue
