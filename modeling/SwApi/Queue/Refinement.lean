import SwApi.Library.Transition
import SwApi.Queue.Fifo

/-! One thread on a queue whose levels all cover: every sequence of calls gets the answers of a list
of bounded FIFOs. -/
namespace SwApi.Queue
open Library RingBuffer Os List Option

variable {q : SwQueue esize}

/-- The calls. The last part of a clear may be anything, or may not return. -/
inductive Op (esize : Nat) where
  | post (level : Int) (e : Element esize)
  | read
  | clear (level : Int) (stray : Option Stray)
  | getNum

inductive Answer (esize : Nat) where
  | posted (result : Int)
  | element (e : Option (Element esize))
  | cleared
  | num (n : Int)
deriving DecidableEq

def perform (q : SwQueue esize) : Op esize → Option (Answer esize × SwQueue esize)
  | .post level e => do
      let (result, q) ← swQueuePostWithLevel q e level
      some (.posted result, q)
  | .read => do
      let (e, q) ← swQueueReadNowait q
      some (.element e, q)
  | .clear level stray => do
      let stray ← stray
      some (.cleared, swQueueClearWithLevel q level stray)
  | .getNum => some (.num (swQueueGetNum q), q)

def stored (fs : List (Fifo α)) : Nat := (fs.map fun f => f.items.length).sum

def room (fs : List (Fifo α)) : Nat := (fs.map Fifo.capacity).sum

def specify (fs : List (Fifo (Element esize))) :
    Op esize → Option (Answer esize × List (Fifo (Element esize)))
  | .post level e => some (.posted 0, fs.modify level.toNat (·.post e))
  | .read =>
      match firstOf fs with
      | none => some (.element none, fs)
      | some (i, e) => some (.element (some e), fs.modify i Fifo.rest)
  | .clear level _ =>
      some (.cleared, if 0 ≤ level then fs.modify level.toNat Fifo.clear else fs)
  | .getNum => some (.num (stored fs), fs)

/-- A post names a level of the queue; the stray give of a clear returns. -/
def InContract (q : SwQueue esize) : Op esize → Prop
  | .post level _ => 0 ≤ level ∧ level < q.levels.length
  | .clear _ stray => stray.isSome
  | _ => True

instance (q : SwQueue esize) (op : Op esize) : Decidable (InContract q op) := by
  unfold InContract
  split <;> infer_instance

/-- The queue stands for `fs`, and a reader need not wait for what is there. -/
structure Serves (q : SwQueue esize) (fs : List (Fifo (Element esize))) : Prop where
  rings : Rings q (fs.map fun _ => true) fs
  binary : q.readSignal.maxVal = 1
  given : 0 < q.readSignal.val ∨ ∀ f ∈ fs, f.items = []

theorem readRegive_binary (q : SwQueue esize) (t : Taken esize) (h : q.readSignal.maxVal = 1) :
    (readRegive q t).readSignal.maxVal = 1 := by
  unfold readRegive
  split
  · exact h
  · rw [giveRead, swSignalGive_maxVal, h]

theorem readRegive_given (q : SwQueue esize) (t : Taken esize) (h : q.readSignal.maxVal = 1) :
    0 < (readRegive q t).readSignal.val ∨ t.isEmpty = true := by
  unfold readRegive
  split
  · exact .inr ‹_›
  · exact .inl (swSignalGive_pos h)

section
variable {fs : List (Fifo (Element esize))}

theorem Serves.covers {i : Nat} (h : Serves q fs) (hl : q.levels[i]? = some l) :
    l.fullCover = true := by
  have hmem : l.fullCover ∈ q.levels.map Level.fullCover :=
    mem_map_of_mem (mem_of_getElem? hl)
  rw [h.rings.covers] at hmem
  obtain ⟨_, -, heq⟩ := mem_map.1 hmem
  exact heq.symm

theorem Serves.set (h : Serves q fs)
    (hl : q.levels[i]? = some l) (hc : Represents l' c) (hsame : l'.fullCover = l.fullCover)
    (s : Signal) (hbinary : s.maxVal = 1) (hgiven : 0 < s.val ∨ ∀ f ∈ fs.set i c, f.items = []) :
    Serves { levels := q.levels.set i l', readSignal := s } (fs.set i c) := by
  refine ⟨?_, hbinary, hgiven⟩
  have hrings := (h.rings.set hl hc hsame).readSignal s
  simpa using hrings

theorem Serves.post (h : Serves q fs) (hw : 0 < esize) (e : Element esize) {level : Int}
    (hlevel : 0 ≤ level ∧ level < q.levels.length) :
    ∃ q', swQueuePostWithLevel q e level = some (0, q') ∧
      Serves q' (fs.modify level.toNat (·.post e)) := by
  have hcheck : postCheck q level = some (some level.toNat) := by
    rw [postCheck, if_neg (by omega), if_neg (by omega)]
  have hi : level.toNat < q.levels.length := by omega
  generalize level.toNat = i at hcheck hi ⊢
  have hl : q.levels[i]? = some q.levels[i] := getElem?_eq_getElem hi
  generalize q.levels[i] = l at hl
  obtain ⟨c, hc, hlc⟩ := forall₂_getElem? h.rings.represents hl
  have hcover := h.covers hl
  -- the try on the write signal, whose result is not looked at
  obtain ⟨result, s, hwait⟩ := swSignalWait_zero l.writeSignal
  let l₁ : Level esize := { l with writeSignal := s }
  let q₁ : SwQueue esize := { q with levels := q.levels.set i l₁ }
  have htry : postTry q i = some q₁ :=
    SwQueue.onLevel_eq_some hl (by simp [hwait, l₁])
  have hl₁ : q₁.levels[i]? = some l₁ := getElem?_set_self hi
  have htest : postTest q₁ i = some false := by
    simp [postTest, hl₁, l₁, hcover]
  obtain ⟨l₂, hput, hrep, hsame⟩ := (hlc.signal s).put_of_cover hw hcover e
  have hwrite : postWrite q₁ i e = some { q₁ with levels := q₁.levels.set i l₂ } :=
    SwQueue.onLevel_eq_some hl₁ hput
  refine ⟨giveRead { q₁ with levels := q₁.levels.set i l₂ }, ?_, ?_⟩
  · simp [swQueuePostWithLevel, hcheck, htry, htest, hwrite]
  · rw [modify_eq_set hc]
    have hpos := swSignalGive_pos h.binary
    have hserves := h.set hl hrep hsame (swSignalGive q.readSignal) (by simp [h.binary]) (.inl hpos)
    simpa [giveRead, q₁, set_set] using hserves

theorem Serves.read (h : Serves q fs) (hw : 0 < esize) :
    ∃ e q' fs', swQueueReadNowait q = some (e, q') ∧ Serves q' fs' ∧
      specify fs .read = some (.element e, fs') := by
  unfold swQueueReadNowait swQueueReadTimeout
  by_cases hlevels : q.levels = []
  · have hfs : fs = [] := by
      have hlen := h.rings.represents.length_eq
      rw [hlevels] at hlen
      exact eq_nil_of_length_eq_zero hlen.symm
    exact ⟨none, q, fs, by rw [if_pos hlevels], h, by rw [specify, hfs]; rfl⟩
  rw [if_neg hlevels]
  by_cases hval : 0 < q.readSignal.val
  · let q₁ : SwQueue esize :=
      { q with readSignal := { q.readSignal with val := q.readSignal.val - 1 } }
    have hwait : readWait q 0 = some (0, q₁) := by
      simp [readWait, swSignalWait, hval, q₁]
    have hrings : Rings q₁ (fs.map fun _ => true) fs := h.rings.readSignal _
    cases hfirst : firstOf fs with
    | none =>
      refine ⟨none, q₁, fs, ?_, ⟨hrings, h.binary, .inr (firstOf_eq_none_iff.1 hfirst)⟩, ?_⟩
      · simp [hwait, hrings.readTake_none hw hlevels hfirst, readRegive, readGive]
      · rw [specify, hfirst]
    | some ke =>
      obtain ⟨k, e⟩ := ke
      obtain ⟨isEmpty, l, c, htake, hl, hc, hlc, hne, hempty⟩ := hrings.readTake_first hw hfirst
      let t : Taken esize := ⟨some (k, e), isEmpty⟩
      let q₂ : SwQueue esize := { q₁ with levels := q₁.levels.set k l.advance }
      let l' : Level esize := { l.advance with writeSignal := swSignalGive l.advance.writeSignal }
      have hl₂ : (readRegive q₂ t).levels[k]? = some l.advance := by
        rw [readRegive_levels]
        exact getElem?_set_self (List.getElem?_eq_some_iff.1 hl).1
      have hgive : readGive (readRegive q₂ t) t =
          some { readRegive q₂ t with levels := (readRegive q₂ t).levels.set k l' } :=
        SwQueue.onLevel_eq_some hl₂ rfl
      refine ⟨some e, { readRegive q₂ t with levels := (readRegive q₂ t).levels.set k l' },
        fs.set k c.rest, ?_, ?_, ?_⟩
      · simp [hwait, htake, hgive, q₂, t]
      · have hrep : Represents l' c.rest := (hlc.take hw hne).2.signal _
        have hserves := h.set hl hrep rfl _ (readRegive_binary q₂ t h.binary)
          ((readRegive_given q₂ t h.binary).imp_right hempty.1)
        simpa [q₂, q₁, set_set] using hserves
      · simp only [specify, hfirst, modify_eq_set hc]
  · refine ⟨none, q, fs, ?_, h, ?_⟩
    · have hwait : readWait q 0 = some (-1, q) := by simp [readWait, swSignalWait, hval]
      simp [hwait]
    · rw [specify, firstOf_eq_none_iff.2 (h.given.resolve_left hval)]

theorem Serves.clear (h : Serves q fs) (level : Int) (stray : Stray) :
    Serves (swQueueClearWithLevel q level stray)
      (if 0 ≤ level then fs.modify level.toNat Fifo.clear else fs) := by
  have hlen := h.rings.represents.length_eq
  have hsection : Serves (clearSection q (some level))
      (if 0 ≤ level then fs.modify level.toNat Fifo.clear else fs) := by
    unfold clearSection
    by_cases hlevel : 0 ≤ level ∧ level < q.levels.length
    · have hi : level.toNat < q.levels.length := by omega
      have hl := getElem?_eq_getElem hi
      obtain ⟨c, hc, hlc⟩ := forall₂_getElem? h.rings.represents hl
      simp only [if_pos hlevel, if_pos hlevel.1, modify_eq_set hc, modify_eq_set hl]
      apply h.set hl hlc.clear rfl _ h.binary
      apply h.given.imp_right
      intro hempty f hf
      rcases mem_or_eq_of_mem_set hf with hmem | rfl
      · exact hempty f hmem
      · rfl
    · -- no level of that number: both sides stay as they are
      have hsame : (if 0 ≤ level then fs.modify level.toNat Fifo.clear else fs) = fs := by
        split
        · exact modify_eq_self (by omega)
        · rfl
      simp only [if_neg hlevel, hsame]
      exact h
  unfold swQueueClearWithLevel
  split
  · rename_i hnil
    have hfs : fs = [] := eq_nil_of_length_eq_zero (by rw [← hlen, hnil]; rfl)
    simpa [hfs] using h
  · exact ⟨hsection.rings.clearGive stray, hsection.binary, hsection.given⟩

end

/-- The sums over the levels do not leave the `int` range when the total fits. -/
theorem foldl_int32 {levels : List (Level esize)} {fs : List (Fifo (Element esize))}
    {g : Int → Level esize → Int} (h : RepresentsAll levels fs)
    (hg : ∀ num l f, Represents l f → g num l = int32 (num + k f)) (acc : Nat)
    (hsum : acc + (fs.map k).sum < 2^31) : levels.foldl g acc = (acc + (fs.map k).sum : Nat) := by
  induction h generalizing acc with
  | nil => simp
  | @cons l f levels fs hl _ ih =>
    rw [map_cons, sum_cons] at hsum ⊢
    have hstep : g acc l = ((acc + k f : Nat) : Int) := by
      rw [hg _ _ _ hl, int32_eq (by omega) (by omega)]
      norm_cast
    rw [foldl_cons, hstep, ih _ (by omega), Nat.add_assoc]

theorem swQueueGetNum_eq (h : Rings q covers fs) (hw : 0 < esize)
    (hfit : stored fs < 2^31) : swQueueGetNum q = stored fs := by
  have hsum := foldl_int32 h.represents (k := fun f => f.items.length)
    (g := fun num l => int32 (num + count l.tsize esize l.read l.write)) ?_ 0 ?_
  · simpa [swQueueGetNum, stored] using hsum
  · intro num l f hl
    rw [hl.tsize, hl.ring.count_eq hw]
  · simpa [stored] using hfit

theorem swQueueGetMax_eq (h : Rings q covers fs) (hw : 0 < esize)
    (hfit : room fs < 2^31) : swQueueGetMax q = room fs := by
  have hsum := foldl_int32 h.represents (k := Fifo.capacity)
    (g := fun num l => int32 (num + (l.tsize / esize : Nat) - 1)) ?_ 0 ?_
  · simpa [swQueueGetMax, room] using hsum
  · intro num l f hl
    rw [hl.tsize, Nat.mul_div_cancel_left _ hw]
    push_cast
    rw [← Int.add_assoc, Int.add_sub_cancel]
  · simpa [room] using hfit

theorem stored_le_room (fs : List (Fifo α)) : stored fs ≤ room fs := by
  induction fs with
  | nil => exact Nat.le_refl 0
  | cons f fs ih =>
    have hf := f.bounded
    simp only [stored, room, map_cons, sum_cons] at ih ⊢
    omega

theorem room_modify {g : Fifo α → Fifo α} (hg : ∀ f, (g f).capacity = f.capacity)
    (fs : List (Fifo α)) (i : Nat) : room (fs.modify i g) = room fs := by
  induction fs generalizing i with
  | nil => cases i <;> rfl
  | cons f fs ih =>
    cases i with
    | zero => simp [room, hg]
    | succ i => simpa [room] using ih i

theorem room_of_specify (h : specify fs op = some (answer, fs')) : room fs' = room fs := by
  cases op with
  | post level e =>
    cases h
    exact room_modify (fun f => f.post_capacity e) fs _
  | read =>
    simp only [specify] at h
    split at h
    · cases h
      rfl
    · cases h
      exact room_modify Fifo.rest_capacity fs _
  | clear level stray =>
    cases h
    split
    · exact room_modify Fifo.clear_capacity fs _
    · rfl
  | getNum =>
    cases h
    rfl

theorem Serves.perform (h : Serves q fs) (hw : 0 < esize)
    (hroom : room fs < 2^31) (hop : InContract q op) :
    ∃ answer q' fs', perform q op = some (answer, q') ∧ specify fs op = some (answer, fs') ∧
    Serves q' fs' := by
  cases op with
  | post level e =>
    obtain ⟨q', hpost, hserves⟩ := h.post hw e hop
    exact ⟨.posted 0, q', _, by simp [Queue.perform, hpost], rfl, hserves⟩
  | read =>
    obtain ⟨e, q', fs', hread, hserves, hspec⟩ := h.read hw
    exact ⟨.element e, q', fs', by simp [Queue.perform, hread], hspec, hserves⟩
  | clear level stray =>
    obtain ⟨effect, rfl⟩ := isSome_iff_exists.1 hop
    exact ⟨.cleared, _, _, rfl, rfl, h.clear level effect⟩
  | getNum =>
    have hnum := swQueueGetNum_eq h.rings hw (Nat.lt_of_le_of_lt (stored_le_room fs) hroom)
    exact ⟨.num (stored fs), q, fs, by simp [Queue.perform, hnum], rfl, h⟩

theorem serves_of_create (hsizes : SizesFit esize config) (hcovers : ∀ c ∈ config, c.2 = true)
    (hq : swQueueCreateWithPriority esize config = some q) : Serves q (fifosOf esize config) := by
  have hrings := rings_of_create hsizes hq
  have htrue : config.map Prod.snd = (fifosOf esize config).map fun _ => true := by
    rw [fifosOf, List.map_map]
    exact map_congr_left hcovers
  rw [htrue] at hrings
  refine ⟨hrings, ?_, .inr ?_⟩
  · unfold swQueueCreateWithPriority at hq
    split at hq
    · cases hq
    · cases hq
      rfl
  · intro f hf
    obtain ⟨c, -, rfl⟩ := mem_map.1 hf
    rfl

/-- The calls on a queue with covering levels whose sizes fit the target's
integers are those on bounded FIFOs. -/
theorem run_refines_fifos (hsizes : SizesFit esize config) (hcovers : ∀ c ∈ config, c.2 = true)
    (hmax : room (fifosOf esize config) < 2^31)
    (hq : swQueueCreateWithPriority esize config = some q₀)
    (hrun : Run perform InContract q₀ history q) :
    ∃ fs, Run specify (fun _ _ => True) (fifosOf esize config) history fs ∧
      q.levels.map Level.contents = fs.map Fifo.items ∧
      swQueueGetNum q = stored fs ∧ swQueueGetNum q ≤ swQueueGetMax q ∧
      ∀ op, InContract q op → (perform q op).isSome := by
  have hw := esize_pos_of_create hq
  -- the simulation: the FIFOs run along, and their room does not change
  have hsim : ∃ fs, Run specify (fun _ _ => True) (fifosOf esize config) history fs ∧
      Serves q fs ∧ room fs = room (fifosOf esize config) := by
    apply Run.invariant (fun history q => ∃ fs, Run specify (fun _ _ => True)
      (fifosOf esize config) history fs ∧ Serves q fs ∧ room fs = room (fifosOf esize config)) _ _
        hrun
    · exact ⟨_, .start, serves_of_create hsizes hcovers hq, rfl⟩
    · rintro history q op answer q' ⟨fs, hspec, hserves, hroom⟩ hop hstep
      obtain ⟨answer', q'', fs', hperform, hspecify, hserves'⟩ :=
        hserves.perform hw (by rw [hroom]; exact hmax) hop
      cases some.inj (hstep.symm.trans hperform)
      exact ⟨fs', .next hspec trivial hspecify, hserves', (room_of_specify hspecify).trans hroom⟩
  obtain ⟨fs, hspec, hserves, hroom⟩ := hsim
  rw [← hroom] at hmax
  have hle := stored_le_room fs
  have hnum := swQueueGetNum_eq hserves.rings hw (by omega)
  refine ⟨fs, hspec, hserves.rings.represents.contents_eq hw, hnum, ?_, ?_⟩
  · rw [hnum, swQueueGetMax_eq hserves.rings hw hmax]
    exact_mod_cast hle
  · intro op hop
    obtain ⟨answer, q', fs', hperform, -, -⟩ := hserves.perform hw hmax hop
    rw [hperform]
    rfl

/-- Three posts to a level with room for two and one to a second level. -/
theorem run_refines_fifos_covering : ∃ (q₀ q : SwQueue 1) (history : List (Op 1 × Answer 1))
    (fs : List (Fifo (Element 1))), swQueueCreateWithPriority 1 [(3, true), (2, true)] = some q₀ ∧
      exec perform InContract q₀ [.post 1 ⟨[9], rfl⟩, .post 0 ⟨[1], rfl⟩, .post 0 ⟨[2], rfl⟩,
        .post 0 ⟨[3], rfl⟩, .read, .clear 1 (some fun _ s => s), .getNum] = some (history, q) ∧
      Run specify (fun _ _ => True) (fifosOf 1 [(3, true), (2, true)]) history fs := by
  obtain ⟨q₀, history, q, hq, he, -⟩ : ∃ q₀ history q,
      swQueueCreateWithPriority 1 [(3, true), (2, true)] = some q₀ ∧
      exec perform InContract q₀ [.post 1 ⟨[9], rfl⟩, .post 0 ⟨[1], rfl⟩, .post 0 ⟨[2], rfl⟩,
        .post 0 ⟨[3], rfl⟩, .read, .clear 1 (some fun _ s => s), .getNum] = some (history, q) ∧
          True :=
    exists_exec_from (fun _ _ _ => True) (by decide +kernel) fun _ _ h => h
  obtain ⟨fs, hspec, -⟩ := run_refines_fifos (by decide) (by decide) (by decide) hq (.of_exec he)
  exact ⟨q₀, q, history, fs, hq, he, hspec⟩

/-- A ring of 2^30 + 1 elements of four bytes: the 32-bit product makes it a ring
of one element, which holds nothing, so the element posted is not read. -/
theorem posted_element_is_not_read : ∃ (q₀ q : SwQueue 4)
    (history history' : List (Op 4 × Answer 4))
    (fs : List (Fifo (Element 4))), swQueueCreateWithPriority 4 [(2^30 + 1, true)] = some q₀ ∧
      exec perform InContract q₀ [.post 0 ⟨[1, 2, 3, 4], rfl⟩, .read] = some (history, q) ∧
      history.map Prod.snd = [.posted 0, .element none] ∧
      exec specify (fun _ _ => True) (fifosOf 4 [(2^30 + 1, true)])
        [.post 0 ⟨[1, 2, 3, 4], rfl⟩, .read] = some (history', fs) ∧
      history'.map Prod.snd = [.posted 0, .element (some ⟨[1, 2, 3, 4], rfl⟩)] := by
  simp only [exists_and_left, exists_comm (α := SwQueue 4) (β := List (Op 4 × Answer 4))]
  decide +kernel

end SwApi.Queue
