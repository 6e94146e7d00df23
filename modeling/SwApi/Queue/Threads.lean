import SwApi.Library.Transition
import SwApi.Queue.Fifo

/-! Any number of threads on one queue. A thread stands before the next part of
the call it is in, and one step runs one part of one thread. -/
namespace SwApi.Queue
open Library RingBuffer Os Option Function

inductive Call (esize : Nat) where
  | post (level : Int) (e : Element esize)
  | read (timeout : Int)
  | clear (level : Option Int)

inductive Pc (esize : Nat) where
  | idle
  | postTry (i : Nat) (e : Element esize)
  | postTest (i : Nat) (e : Element esize)
  | postSleep (i : Nat) (e : Element esize)
  | postWrite (i : Nat) (e : Element esize)
  | postGive
  | readWait (timeout : Int)
  | readTake
  | readRegive (t : Taken esize)
  | readGive (t : Taken esize)
  | clearSection (level : Option Int)
  | clearGive
deriving DecidableEq

inductive Event (esize : Nat) where
  | quiet
  | wrote (i : Nat) (e : Element esize)
  | took (i : Nat) (e : Element esize)
deriving DecidableEq

def Taken.event (t : Taken esize) : Event esize :=
  match t.got with
  | none => .quiet
  | some (i, e) => .took i e

structure System (esize : Nat) where
  queue : SwQueue esize
  pc : Nat → Pc esize

/-- A thread enters a call, runs the next part of its call, or runs the last
part of a clear, whose effect is not the queue's choice. -/
inductive Action (esize : Nat) where
  | call (thread : Nat) (c : Call esize)
  | advance (thread : Nat)
  | stray (thread : Nat) (effect : Stray)

def Action.thread : Action esize → Nat
  | .call t _ => t
  | .advance t => t
  | .stray t _ => t

def enter (q : SwQueue esize) : Call esize → Option (Pc esize)
  | .post level e => do
      match ← postCheck q level with
      | none => some .idle
      | some i => some (.postTry i e)
  | .read timeout => some (if q.levels = [] then .idle else .readWait timeout)
  | .clear level => some (if q.levels = [] then .idle else .clearSection level)

def proceed (q : SwQueue esize) : Pc esize → Option (Event esize × Pc esize × SwQueue esize)
  | .idle => none
  | .postTry i e => do
      let q ← postTry q i
      some (.quiet, .postTest i e, q)
  | .postTest i e => do
      let isFull ← postTest q i
      some (.quiet, if isFull then .postSleep i e else .postWrite i e, q)
  | .postSleep i e => do
      let q ← postSleep q i
      some (.quiet, .postWrite i e, q)
  | .postWrite i e => do
      let q ← postWrite q i e
      some (.wrote i e, .postGive, q)
  | .postGive => some (.quiet, .idle, giveRead q)
  | .readWait timeout => do
      let (result, q) ← readWait q timeout
      some (.quiet, if result = 0 then .readTake else .idle, q)
  | .readTake => do
      let (t, q) ← readTake q
      some (t.event, .readRegive t, q)
  | .readRegive t => some (.quiet, .readGive t, readRegive q t)
  | .readGive t => do
      let q ← readGive q t
      some (.quiet, .idle, q)
  | .clearSection level => some (.quiet, .clearGive, clearSection q level)
  | .clearGive => none

def step (s : System esize) : Action esize → Option (Event esize × System esize)
  | .call t c =>
      match s.pc t with
      | .idle => do
          let pc ← enter s.queue c
          some (.quiet, { s with pc := update s.pc t pc })
      | _ => none
  | .advance t => do
      let (event, pc, queue) ← proceed s.queue (s.pc t)
      some (event, { queue, pc := update s.pc t pc })
  | .stray t effect =>
      match s.pc t with
      | .clearGive =>
          some (.quiet, { queue := clearGive s.queue effect, pc := update s.pc t .idle })
      | _ => none

def System.start (q : SwQueue esize) : System esize := ⟨q, fun _ => .idle⟩

/-! ### A call without interference

The calls of a single thread are the runs in which only that thread moves. -/

def System.at (q : SwQueue esize) (others : Nat → Pc esize) (t : Nat) (pc : Pc esize) :
    System esize :=
  ⟨q, update others t pc⟩

section
variable {pc' : Pc esize}

def Reaches (t : Nat) (s s' : System esize) : Prop :=
  ∃ history, Run step (fun _ a => a = .advance t ∨ ∃ c, a = .call t c) s history s'

theorem Reaches.refl (s : System esize) : Reaches t s s := ⟨[], .start⟩

theorem Reaches.call (h : Reaches t s (.at q others t .idle))
    (hc : enter q c = some pc) : Reaches t s (.at q others t pc) := by
  obtain ⟨history, hrun⟩ := h
  refine ⟨_, hrun.next (b := .quiet) (.inr ⟨c, rfl⟩) ?_⟩
  simp [step, System.at, hc]

theorem Reaches.advance (h : Reaches t s (.at q others t pc))
    (event : Event esize) (hp : proceed q pc = some (event, pc', q')) :
    Reaches t s (.at q' others t pc') := by
  obtain ⟨history, hrun⟩ := h
  refine ⟨_, hrun.next (b := event) (.inl rfl) ?_⟩
  simp [step, System.at, hp]

theorem post_reaches (h : swQueuePostWithLevel q e level = some (result, q')) :
    Reaches t (.at q others t .idle) (.at q' others t .idle) := by
  obtain ⟨answer, hcheck, h⟩ := bind_eq_some_iff.1 h
  cases answer with
  | none =>
    cases h
    exact (Reaches.refl _).call (c := .post level e) (by simp [enter, hcheck])
  | some i =>
    obtain ⟨q₁, htry, h⟩ := bind_eq_some_iff.1 h
    obtain ⟨isFull, htest, h⟩ := bind_eq_some_iff.1 h
    obtain ⟨q₂, hsleep, h⟩ := bind_eq_some_iff.1 h
    obtain ⟨q₃, hwrite, h⟩ := bind_eq_some_iff.1 h
    cases h
    have h₀ : Reaches t _ (.at q others t (.postTry i e)) :=
      (Reaches.refl _).call (c := .post level e) (by simp [enter, hcheck])
    have h₁ : Reaches t _ (.at q₁ others t (.postTest i e)) :=
      h₀.advance .quiet (by simp [proceed, htry])
    have h₂ : Reaches t (.at q others t .idle) (.at q₂ others t (.postWrite i e)) := by
      cases isFull with
      | false =>
        cases hsleep
        exact h₁.advance .quiet (by simp [proceed, htest])
      | true =>
        have hwait : Reaches t _ (.at q₁ others t (.postSleep i e)) :=
          h₁.advance .quiet (by simp [proceed, htest])
        exact hwait.advance .quiet (by simp [proceed, show postSleep q₁ i = some q₂ from hsleep])
    have h₃ : Reaches t _ (.at q₃ others t .postGive) :=
      h₂.advance (.wrote i e) (by simp [proceed, hwrite])
    exact h₃.advance .quiet rfl

theorem read_reaches (h : swQueueReadTimeout q timeout = some (result, q')) :
    Reaches t (.at q others t .idle) (.at q' others t .idle) := by
  unfold swQueueReadTimeout at h
  split at h
  · rename_i hlevels
    cases h
    exact (Reaches.refl _).call (c := .read timeout) (by simp [enter, hlevels])
  · rename_i hlevels
    obtain ⟨⟨answer, q₁⟩, hwait, h⟩ := bind_eq_some_iff.1 h
    have h₀ : Reaches t _ (.at q others t (.readWait timeout)) :=
      (Reaches.refl _).call (c := .read timeout) (by simp [enter, hlevels])
    by_cases hanswer : answer = 0
    · obtain ⟨⟨taken, q₂⟩, htake, h⟩ := bind_eq_some_iff.1
        ((if_neg (not_not.2 hanswer)).symm.trans h)
      obtain ⟨q₃, hgive, h⟩ := bind_eq_some_iff.1 h
      cases h
      have h₁ : Reaches t _ (.at q₁ others t .readTake) :=
        h₀.advance .quiet (by simp [proceed, hwait, hanswer])
      have h₂ : Reaches t _ (.at q₂ others t (.readRegive taken)) :=
        h₁.advance taken.event (by simp [proceed, htake])
      have h₃ : Reaches t _ (.at (readRegive q₂ taken) others t (.readGive taken)) :=
        h₂.advance .quiet rfl
      exact h₃.advance .quiet (by simp [proceed, hgive])
    · cases some.inj ((if_pos hanswer).symm.trans h)
      exact h₀.advance .quiet (by simp [proceed, hwait, hanswer])

end

inductive Move (s : System esize) : Action esize → Event esize → SwQueue esize → Pc esize →
    Prop where
  | call {t c pc} (hidle : s.pc t = .idle) (hc : enter s.queue c = some pc) :
      Move s (.call t c) .quiet s.queue pc
  | advance {t event q pc} (hp : proceed s.queue (s.pc t) = some (event, pc, q)) :
      Move s (.advance t) event q pc
  | stray {t effect} (hclear : s.pc t = .clearGive) :
      Move s (.stray t effect) .quiet (clearGive s.queue effect) .idle

theorem step_inv (h : step s a = some (event, s')) :
    ∃ q' pc', Move s a event q' pc' ∧ s' = ⟨q', update s.pc a.thread pc'⟩ := by
  cases a with
  | call t c =>
    simp only [step] at h
    split at h
    · rename_i hidle
      obtain ⟨pc, hc, h⟩ := bind_eq_some_iff.1 h
      cases h
      exact ⟨s.queue, pc, .call hidle hc, rfl⟩
    · cases h
  | advance t =>
    obtain ⟨⟨event', pc, q⟩, hp, h⟩ := bind_eq_some_iff.1 h
    cases h
    exact ⟨q, pc, .advance hp, rfl⟩
  | stray t effect =>
    simp only [step] at h
    split at h
    · rename_i hclear
      cases h
      exact ⟨clearGive s.queue effect, .idle, .stray hclear, rfl⟩
    · cases h

def Pc.clearing : Pc esize → Bool
  | .clearSection _ => true
  | .clearGive => true
  | _ => false

def Action.isClear : Action esize → Bool
  | .call _ (.clear _) => true
  | _ => false

/-- The next part writes into a ring that does not cover and that is full: the
test the poster has passed would now make it wait. -/
def Pc.overruns (q : SwQueue esize) : Pc esize → Bool
  | .postWrite i _ => Queue.postTest q i == some true
  | _ => false

def overruns (s : System esize) : Action esize → Bool
  | .advance t => (s.pc t).overruns s.queue
  | _ => false

inductive Effect (covers : List Bool) (fs : List (Fifo (Element esize))) :
    Event esize → Bool → List (Fifo (Element esize)) → Prop where
  | quiet : Effect covers fs .quiet false fs
  | wrote {i f e} : fs[i]? = some f → covers[i]? = some true ∨ f.items.length < f.capacity →
      Effect covers fs (.wrote i e) false (fs.set i (f.post e))
  | overran {i f e} : fs[i]? = some f → covers[i]? = some false → f.items.length = f.capacity →
      Effect covers fs (.wrote i e) true (fs.set i f.clear)
  | took {i f e} : fs[i]? = some f → f.items = e :: f.rest.items →
      Effect covers fs (.took i e) false (fs.set i f.rest)

section
variable {covers : List Bool} {fs : List (Fifo (Element esize))}

theorem onWait_signal (timeout : Int) (l l' : Level esize)
    (h : (do
      let (_, writeSignal) ← swSignalWait l.writeSignal timeout
      some { l with writeSignal }) = some l') : ∃ s, l' = { l with writeSignal := s } := by
  obtain ⟨⟨_, s⟩, -, h⟩ := bind_eq_some_iff.1 h
  exact ⟨s, (some.inj h).symm⟩

section
variable (h : Rings q covers fs) (hw : 0 < esize)
include h hw

theorem Rings.postWrite (hq : postWrite q i e = some q') :
    ∃ fs', Rings q' covers fs' ∧ Effect covers fs (.wrote i e) (postTest q i == some true) fs' := by
  obtain ⟨l, l', f, hl, hput, hf, hlf, hcover, hrings⟩ := h.onLevel hq
  have htest : postTest q i = some (!l.fullCover && l.isFull) := by
    simp [postTest, hl]
  cases hc : l.fullCover with
  | true =>
    obtain ⟨l'', hput', hrep, hsame⟩ := hlf.put_of_cover hw hc e
    cases some.inj (hput.symm.trans hput')
    refine ⟨fs.set i (f.post e), hrings _ hrep hsame, ?_⟩
    simpa [htest, hc] using Effect.wrote hf (.inl (hcover.trans (by rw [hc])))
  | false =>
    by_cases hroom : f.items.length < f.capacity
    · obtain ⟨l'', hput', hrep, hsame⟩ := hlf.put_of_room hw hroom e
      cases some.inj (hput.symm.trans hput')
      refine ⟨fs.set i (f.post e), hrings _ hrep hsame, ?_⟩
      have hfull : l.isFull = false := by
        rw [← Bool.not_eq_true, hlf.isFull_iff hw]
        omega
      simpa [htest, hc, hfull] using Effect.wrote hf (.inr hroom)
    · have hfull : f.items.length = f.capacity := by
        have := f.bounded
        omega
      obtain ⟨l'', hput', hrep, hsame⟩ := hlf.put_of_full hw hc hfull e
      cases some.inj (hput.symm.trans hput')
      refine ⟨fs.set i f.clear, hrings _ hrep hsame, ?_⟩
      simpa [htest, hc, (hlf.isFull_iff hw).2 hfull] using
        Effect.overran hf (hcover.trans (by rw [hc])) hfull

theorem Rings.readTake (hq : readTake q = some (t, q')) :
    ∃ fs', Rings q' covers fs' ∧ Effect covers fs t.event false fs' := by
  by_cases hl : q.levels = []
  · unfold Queue.readTake at hq
    rw [hl] at hq
    cases hq
    exact ⟨fs, ⟨hl ▸ h.represents, hl ▸ h.covers⟩, .quiet⟩
  cases hfirst : firstOf fs with
  | none =>
    rw [h.readTake_none hw hl hfirst] at hq
    cases hq
    exact ⟨fs, h, .quiet⟩
  | some ke =>
    obtain ⟨k, e⟩ := ke
    obtain ⟨isEmpty, l, c, htake, hl, hc, hlc, hne, -⟩ := h.readTake_first hw hfirst
    rw [htake] at hq
    cases hq
    exact ⟨fs.set k c.rest, h.set hl (hlc.take hw hne).2 rfl, .took hc hne⟩

theorem Rings.proceed
    (hpc : pc.clearing = false) (hq : proceed q pc = some (event, pc', q')) :
    (∃ fs', Rings q' covers fs' ∧ Effect covers fs event (pc.overruns q) fs') ∧
    pc'.clearing = false := by
  cases pc with
  | idle => cases hq
  | postTry i e =>
    obtain ⟨q₁, hq₁, hq⟩ := bind_eq_some_iff.1 hq
    cases hq
    exact ⟨⟨fs, h.onSignal hq₁ (onWait_signal 0), .quiet⟩, rfl⟩
  | postTest i e =>
    obtain ⟨isFull, hq₁, hq⟩ := bind_eq_some_iff.1 hq
    cases hq
    exact ⟨⟨fs, h, .quiet⟩, by cases isFull <;> rfl⟩
  | postSleep i e =>
    obtain ⟨q₁, hq₁, hq⟩ := bind_eq_some_iff.1 hq
    cases hq
    exact ⟨⟨fs, h.onSignal hq₁ (onWait_signal (-1)), .quiet⟩, rfl⟩
  | postWrite i e =>
    obtain ⟨q₁, hq₁, hq⟩ := bind_eq_some_iff.1 hq
    cases hq
    exact ⟨h.postWrite hw hq₁, rfl⟩
  | postGive =>
    cases hq
    exact ⟨⟨fs, h.readSignal _, .quiet⟩, rfl⟩
  | readWait timeout =>
    obtain ⟨⟨result, q₁⟩, hq₁, hq⟩ := bind_eq_some_iff.1 hq
    obtain ⟨⟨_, s⟩, -, hq₁⟩ := bind_eq_some_iff.1 hq₁
    cases hq₁
    cases hq
    refine ⟨⟨fs, h.readSignal s, .quiet⟩, ?_⟩
    split <;> rfl
  | readTake =>
    obtain ⟨⟨t, q₁⟩, hq₁, hq⟩ := bind_eq_some_iff.1 hq
    cases hq
    exact ⟨h.readTake hw hq₁, rfl⟩
  | readRegive t =>
    cases hq
    refine ⟨⟨fs, ?_, .quiet⟩, rfl⟩
    unfold readRegive
    split
    · exact h
    · exact h.readSignal _
  | readGive t =>
    obtain ⟨q₁, hq₁, hq⟩ := bind_eq_some_iff.1 hq
    cases hq
    refine ⟨⟨fs, ?_, .quiet⟩, rfl⟩
    unfold readGive at hq₁
    split at hq₁
    · cases hq₁
      exact h
    · apply h.onSignal hq₁
      intro l l' hl
      exact ⟨_, (some.inj hl).symm⟩
  | clearSection level | clearGive => cases hpc

end

end

theorem enter_clearing (hc : (Action.call t c).isClear = false)
    (h : enter q c = some pc) : pc.clearing = false := by
  cases c with
  | post level e =>
    obtain ⟨answer, -, h⟩ := bind_eq_some_iff.1 h
    cases answer <;> cases h <;> rfl
  | read timeout =>
    cases h
    split <;> rfl
  | clear level => cases hc

theorem step_effect {s s' : System esize} (h : Rings s.queue covers fs) (hw : 0 < esize)
    (hpc : ∀ t, (s.pc t).clearing = false) (ha : a.isClear = false)
    (hs : step s a = some (event, s')) :
    (∃ fs', Rings s'.queue covers fs' ∧ Effect covers fs event (overruns s a) fs') ∧
      ∀ t, (s'.pc t).clearing = false := by
  have hupdate : ∀ t (pc : Pc esize), pc.clearing = false →
      ∀ u, (update s.pc t pc u).clearing = false := by
    intro t pc hclear u
    by_cases hu : u = t
    · rw [hu, update_self, hclear]
    · rw [update_of_ne hu, hpc u]
  obtain ⟨q', pc', hmove, rfl⟩ := step_inv hs
  cases hmove with
  | call hidle hc => exact ⟨⟨fs, h, .quiet⟩, hupdate _ pc' (enter_clearing ha hc)⟩
  | advance hp =>
    have hproceed := h.proceed hw (hpc _) hp
    exact ⟨hproceed.1, hupdate _ pc' hproceed.2⟩
  | @stray t effect hclear =>
    have hnot := hpc t
    rw [hclear] at hnot
    cases hnot

end SwApi.Queue
