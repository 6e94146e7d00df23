import SwApi.Queue.Threads

/-! Nobody waits in vain: a signal that is taken is given again, or owed by a thread on its way, as
long as what it stands for is there. -/
namespace SwApi.Queue
open Library RingBuffer Os List Option Function

variable {taken : Taken esize}

variable {q : SwQueue esize} {s : System esize}

theorem onLevel_inv (h : q.onLevel i f = some q') :
    ∃ l l', q.levels[i]? = some l ∧ f l = some l' ∧
    q' = { q with levels := q.levels.set i l' } := by
  obtain ⟨l, hl, h⟩ := bind_eq_some_iff.1 h
  obtain ⟨l', hl', h⟩ := bind_eq_some_iff.1 h
  exact ⟨l, l', hl, hl', (some.inj h).symm⟩

theorem onLevel_readSignal (h : q.onLevel i f = some q') : q'.readSignal = q.readSignal := by
  obtain ⟨l, l', -, -, rfl⟩ := onLevel_inv h
  rfl

def clears (level : Option Int) (i : Nat) : Prop := level.all (· == (i : Int)) = true

theorem clearSection_level (h : (clearSection q level).levels[i]? = some l') :
    ∃ l, q.levels[i]? = some l ∧ ((clears level i ∧ l' = l.clear) ∨ l' = l) := by
  cases level with
  | none =>
    rw [clearSection, getElem?_map] at h
    obtain ⟨l, hl, rfl⟩ := map_eq_some_iff.1 h
    exact ⟨l, hl, .inl ⟨rfl, rfl⟩⟩
  | some level =>
    rw [clearSection] at h
    split at h
    · rename_i hlevel
      obtain ⟨l, hl⟩ : ∃ l, q.levels[level.toNat]? = some l := ⟨_, getElem?_eq_getElem (by omega)⟩
      rw [modify_eq_set hl, getElem?_set_of_some hl] at h
      split at h
      · rename_i hi
        subst hi
        cases h
        refine ⟨l, hl, .inl ⟨beq_iff_eq.2 ?_, rfl⟩⟩
        omega
      · exact ⟨l', h, .inr rfl⟩
    · exact ⟨l', h, .inr rfl⟩

theorem clearSection_readSignal : (clearSection q level).readSignal = q.readSignal := by
  cases level with
  | none => rfl
  | some level =>
    rw [clearSection]
    split <;> rfl

/-- One round: `got` and `l'` are what it makes of the element taken so far and of its
level; the loop breaks off if the level is not empty then. -/
theorem readScan_cons {t t' : Taken esize} (h : readScan t i (l :: rest) = some (t', levels')) :
    ∃ got l', ((t.got = none ∧ ∃ e, got = some (i, e) ∧ l' = l.advance) ∨ (got = t.got ∧ l' = l)) ∧
      ((t' = ⟨got, false⟩ ∧ levels' = l' :: rest) ∨
        (l'.read = l'.write ∧ ∃ rest', readScan ⟨got, true⟩ (i + 1) rest = some (t', rest') ∧
          levels' = l' :: rest')) := by
  -- the part of a round behind the copy
  have hrest : ∀ got (l' : Level esize),
      (if !(⟨got, l'.read == l'.write⟩ : Taken esize).isEmpty then
        some ((⟨got, l'.read == l'.write⟩ : Taken esize), l' :: rest)
      else (readScan ⟨got, l'.read == l'.write⟩ (i + 1) rest).bind fun r => some (r.1, l' :: r.2)) =
        some (t', levels') →
      (t' = ⟨got, false⟩ ∧ levels' = l' :: rest) ∨
        (l'.read = l'.write ∧ ∃ rest', readScan ⟨got, true⟩ (i + 1) rest = some (t', rest') ∧
          levels' = l' :: rest') := by
    intro got l' h
    by_cases hempty : l'.read = l'.write
    · simp only [hempty, beq_self_eq_true, Bool.not_true, Bool.false_eq_true, if_false] at h
      obtain ⟨⟨t₁, rest'⟩, hscan, h⟩ := bind_eq_some_iff.1 h
      cases h
      exact .inr ⟨hempty, rest', hscan, rfl⟩
    · have hbeq : (l'.read == l'.write) = false := beq_eq_false_iff_ne.2 hempty
      simp only [hbeq, Bool.not_false, if_true] at h
      cases h
      exact .inl ⟨rfl, rfl⟩
  rw [readScan] at h
  split at h
  · rename_i hread
    obtain ⟨e, -, h⟩ := bind_eq_some_iff.1 h
    exact ⟨some (i, e), l.advance, .inl ⟨hread.2, e, rfl, rfl⟩, hrest _ _ h⟩
  · exact ⟨t.got, l, .inr ⟨rfl, rfl⟩, hrest _ _ h⟩

theorem readScan_keeps (hgot : t.got ≠ none) (h : readScan t i levels = some (t', levels')) :
    t'.got = t.got ∧ levels' = levels := by
  induction levels generalizing t i levels' with
  | nil =>
    cases h
    exact ⟨rfl, rfl⟩
  | cons l rest ih =>
    obtain ⟨got, l', ⟨hnone, -⟩ | ⟨rfl, rfl⟩, hround⟩ := readScan_cons h
    · exact absurd hnone hgot
    · rcases hround with ⟨rfl, rfl⟩ | ⟨-, rest', hscan, rfl⟩
      · exact ⟨rfl, rfl⟩
      · obtain ⟨hsame, rfl⟩ := ih (t := ⟨t.got, true⟩) hgot hscan
        exact ⟨hsame, rfl⟩

theorem readScan_takes {t t' : Taken esize}
    (hgot : t.got = none) (h : readScan t i levels = some (t', levels')) :
    (t'.got = none ∧ levels' = levels) ∨
      ∃ k l e, levels[k]? = some l ∧ t'.got = some (i + k, e) ∧
      levels' = levels.set k l.advance := by
  induction levels generalizing t i levels' with
  | nil =>
    cases h
    exact .inl ⟨hgot, rfl⟩
  | cons l rest ih =>
    obtain ⟨got, l', ⟨-, e, rfl, rfl⟩ | ⟨rfl, rfl⟩, hround⟩ := readScan_cons h
    · rcases hround with ⟨rfl, rfl⟩ | ⟨-, rest', hscan, rfl⟩
      · exact .inr ⟨0, l, e, rfl, rfl, rfl⟩
      · obtain ⟨hsame, rfl⟩ := readScan_keeps (by simp) hscan
        exact .inr ⟨0, l, e, rfl, hsame, rfl⟩
    · rcases hround with ⟨rfl, rfl⟩ | ⟨-, rest', hscan, rfl⟩
      · exact .inl ⟨hgot, rfl⟩
      · rcases ih (t := ⟨t.got, true⟩) hgot hscan with ⟨hnone, rfl⟩ | ⟨k, l₁, e, hk, hsome, rfl⟩
        · exact .inl ⟨hnone, rfl⟩
        · refine .inr ⟨k + 1, l₁, e, hk, ?_, rfl⟩
          rw [hsome, Nat.add_right_comm, Nat.add_assoc]

theorem readScan_isEmpty (h : readScan t i levels = some (t', levels'))
    (hempty : t'.isEmpty = true) : ∀ l ∈ levels', l.read = l.write := by
  induction levels generalizing t i levels' with
  | nil =>
    cases h
    exact forall_mem_nil _
  | cons l rest ih =>
    obtain ⟨got, l', -, ⟨rfl, -⟩ | ⟨hlast, rest', hscan, rfl⟩⟩ := readScan_cons h
    · cases hempty
    · exact forall_mem_cons.2 ⟨hlast, ih hscan⟩

def SwQueue.holdsAny (q : SwQueue esize) : Prop := ∃ l ∈ q.levels, l.read ≠ l.write

/-- While there is an element the read signal is given, or a poster has written and still
has to give it, or a reader has taken it and is not behind the step that gives it again. -/
def ReadAwake (s : System esize) : Prop :=
  s.queue.holdsAny → 0 < s.queue.readSignal.val ∨ (∃ t, s.pc t = .postGive) ∨
    ∃ t, s.pc t = .readTake ∨ ∃ taken, s.pc t = .readRegive taken

def Pc.owesRead : Pc esize → Bool
  | .postGive => true
  | .readTake => true
  | .readRegive taken => !taken.isEmpty
  | _ => false

inductive ReadEffect (q q' : SwQueue esize) (pc pc' : Pc esize) : Prop where
  | gives (h : 0 < q'.readSignal.val)
  | owes (h : pc'.owesRead = true)
  | empties (h : ¬q'.holdsAny)
  | keeps (hpc : pc.owesRead = false) (hval : q'.readSignal = q.readSignal)
      (hany : q'.holdsAny → q.holdsAny)

theorem holdsAny_of_set (hl : q.levels[i]? = some l) (hsame : l'.read ≠ l'.write → l.read ≠ l.write)
    (h : ({ q with levels := q.levels.set i l' } : SwQueue esize).holdsAny) : q.holdsAny := by
  obtain ⟨l₁, hmem, hne⟩ := h
  rcases mem_or_eq_of_mem_set hmem with hmem | rfl
  · exact ⟨l₁, hmem, hne⟩
  · exact ⟨l, mem_of_getElem? hl, hsame hne⟩

theorem ReadEffect.onSignal (hpc : pc.owesRead = false) (h : q.onLevel i f = some q')
    (hf : ∀ l l', f l = some l' → ∃ s, l' = { l with writeSignal := s }) :
    ReadEffect q q' pc pc' := by
  obtain ⟨l, l', hl, hl', rfl⟩ := onLevel_inv h
  obtain ⟨s, rfl⟩ := hf l l' hl'
  exact .keeps hpc rfl (holdsAny_of_set hl id)

theorem readWait_readEffect (h : readWait q timeout = some (result, q')) :
    ReadEffect q q' (.readWait timeout) (if result = 0 then .readTake else .idle) ∧
      q'.readSignal.maxVal = q.readSignal.maxVal := by
  obtain ⟨⟨result', signal⟩, hwait, h⟩ := bind_eq_some_iff.1 h
  cases h
  rw [swSignalWait] at hwait
  split at hwait
  · cases hwait
    exact ⟨.owes rfl, rfl⟩
  · split at hwait
    · cases hwait
    · cases hwait
      exact ⟨.keeps rfl rfl id, rfl⟩

theorem readTake_readEffect (h : readTake q = some (taken, q')) :
    ReadEffect q q' .readTake (.readRegive taken) ∧ q'.readSignal = q.readSignal := by
  obtain ⟨⟨taken', levels⟩, hscan, h⟩ := bind_eq_some_iff.1 h
  cases h
  refine ⟨?_, rfl⟩
  cases hempty : taken.isEmpty with
  | true =>
    apply ReadEffect.empties
    rintro ⟨l, hl, hne⟩
    exact hne (readScan_isEmpty hscan hempty l hl)
  | false => exact .owes (by rw [Pc.owesRead, hempty]; rfl)

theorem proceed_readEffect (hmax : q.readSignal.maxVal = 1)
    (h : proceed q pc = some (event, pc', q')) :
    ReadEffect q q' pc pc' ∧ q'.readSignal.maxVal = 1 := by
  cases pc with
  | idle => cases h
  | postTry i e | postSleep i e =>
    obtain ⟨q₁, hq₁, h⟩ := bind_eq_some_iff.1 h
    cases h
    refine ⟨.onSignal rfl hq₁ (onWait_signal _), ?_⟩
    rw [onLevel_readSignal hq₁, hmax]
  | postTest i e =>
    obtain ⟨isFull, -, h⟩ := bind_eq_some_iff.1 h
    cases h
    exact ⟨.keeps rfl rfl id, hmax⟩
  | postWrite i e =>
    obtain ⟨q₁, hq₁, h⟩ := bind_eq_some_iff.1 h
    cases h
    refine ⟨.owes rfl, ?_⟩
    rw [onLevel_readSignal hq₁, hmax]
  | postGive =>
    cases h
    exact ⟨.gives (swSignalGive_pos hmax), (swSignalGive_maxVal _).trans hmax⟩
  | readWait timeout =>
    obtain ⟨⟨result, q₁⟩, hq₁, h⟩ := bind_eq_some_iff.1 h
    cases h
    obtain ⟨heffect, hsame⟩ := readWait_readEffect hq₁
    exact ⟨heffect, hsame.trans hmax⟩
  | readTake =>
    obtain ⟨⟨taken, q₁⟩, hq₁, h⟩ := bind_eq_some_iff.1 h
    cases h
    obtain ⟨heffect, hsame⟩ := readTake_readEffect hq₁
    exact ⟨heffect, by rw [hsame, hmax]⟩
  | readRegive taken =>
    cases h
    rw [readRegive]
    split
    · rename_i hempty
      exact ⟨.keeps (by rw [Pc.owesRead, hempty]; rfl) rfl id, hmax⟩
    · exact ⟨.gives (swSignalGive_pos hmax), (swSignalGive_maxVal _).trans hmax⟩
  | readGive taken =>
    obtain ⟨q₁, hq₁, h⟩ := bind_eq_some_iff.1 h
    cases h
    rw [readGive] at hq₁
    split at hq₁
    · cases hq₁
      exact ⟨.keeps rfl rfl id, hmax⟩
    · refine ⟨.onSignal rfl hq₁ fun l l' hl => ⟨_, (some.inj hl).symm⟩, ?_⟩
      rw [onLevel_readSignal hq₁, hmax]
  | clearSection level =>
    cases h
    rw [clearSection_readSignal]
    refine ⟨.keeps rfl clearSection_readSignal ?_, hmax⟩
    rintro ⟨l', hmem, hne⟩
    obtain ⟨i, hi⟩ := mem_iff_getElem?.1 hmem
    obtain ⟨l, hl, ⟨-, rfl⟩ | rfl⟩ := clearSection_level hi
    · exact absurd rfl hne
    · exact ⟨l', mem_of_getElem? hl, hne⟩
  | clearGive => cases h

/-- The invariant: an element is announced, or a thread owes its announcement. -/
structure ReadOwed (s : System esize) : Prop where
  binary : s.queue.readSignal.maxVal = 1
  owed : s.queue.holdsAny → 0 < s.queue.readSignal.val ∨ ∃ t, (s.pc t).owesRead = true

theorem ReadOwed.update (h : ReadOwed s) (heffect : ReadEffect s.queue q' (s.pc t) pc')
    (hmax : q'.readSignal.maxVal = 1) : ReadOwed ⟨q', update s.pc t pc'⟩ := by
  refine ⟨hmax, ?_⟩
  intro hany
  cases heffect with
  | gives hval => exact .inl hval
  | owes hpc' =>
    refine .inr ⟨t, ?_⟩
    change (Function.update s.pc t pc' t).owesRead = true
    rw [update_self]
    exact hpc'
  | empties hnone => exact absurd hany hnone
  | keeps hpc hval hback =>
    rcases h.owed (hback hany) with hgiven | ⟨u, hu⟩
    · rw [← hval] at hgiven
      exact .inl hgiven
    · refine .inr ⟨u, ?_⟩
      have hut : u ≠ t := by
        rintro rfl
        rw [hpc] at hu
        cases hu
      change (Function.update s.pc t pc' u).owesRead = true
      rw [update_of_ne hut]
      exact hu

theorem ReadOwed.step (h : ReadOwed s) (hs : step s a = some (event, s')) : ReadOwed s' := by
  obtain ⟨q', pc', hmove, rfl⟩ := step_inv hs
  cases hmove with
  | call hidle hc => exact h.update (.keeps (by rw [Action.thread, hidle]; rfl) rfl id) h.binary
  | advance hp =>
    obtain ⟨heffect, hmax⟩ := proceed_readEffect h.binary hp
    exact h.update heffect hmax
  | @stray t effect hclear =>
    have hback : (clearGive s.queue effect).holdsAny → s.queue.holdsAny := by
      rintro ⟨l, hl, hne⟩
      obtain ⟨i, hi, rfl⟩ := mem_mapIdx.1 hl
      exact ⟨s.queue.levels[i], getElem_mem hi, hne⟩
    exact h.update (.keeps (by rw [Action.thread, hclear]; rfl) rfl hback) h.binary

theorem ReadOwed.readAwake (h : ReadOwed s) : ReadAwake s := by
  intro hany
  rcases h.owed hany with hgiven | ⟨t, ht⟩
  · exact .inl hgiven
  · cases hpc : s.pc t with
    | postGive => exact .inr (.inl ⟨t, hpc⟩)
    | readTake => exact .inr (.inr ⟨t, .inl hpc⟩)
    | readRegive taken => exact .inr (.inr ⟨t, .inr ⟨taken, hpc⟩⟩)
    | _ =>
      rw [hpc] at ht
      cases ht

theorem readOwed_start (hq : swQueueCreateWithPriority esize config = some q) :
    ReadOwed (.start q) := by
  rw [swQueueCreateWithPriority] at hq
  split at hq
  · cases hq
  · cases hq
    refine ⟨rfl, ?_⟩
    rintro ⟨l, hl, hne⟩
    obtain ⟨c, -, rfl⟩ := mem_map.1 hl
    exact absurd rfl hne

/-- No interleaving of posts and reads loses the announcement of an element. -/
theorem run_readAwake {config : List (Int × Bool)} {history : List (Action esize × Event esize)}
    (hq : swQueueCreateWithPriority esize config = some q)
    (hrun : Run step (fun _ a => a.isClear = false) (.start q) history s) : ReadAwake s := by
  have howed : ReadOwed s := by
    apply Run.invariant (fun _ s => ReadOwed s) (readOwed_start hq) _ hrun
    intro history s a event s' h _ hs
    exact h.step hs
  exact howed.readAwake

/-- Two posts are announced once; the reader takes one element and gives the signal again. -/
theorem run_readAwake_regiven : ∃ (q : SwQueue 1) (history : List (Action 1 × Event 1))
    (s : System 1), swQueueCreateWithPriority 1 [(4, true), (3, false)] = some q ∧
      exec step (fun _ a => a.isClear = false) (.start q)
        [.call 0 (.post 1 ⟨[7], rfl⟩), .advance 0, .advance 0, .advance 0,
         .call 1 (.post 0 ⟨[8], rfl⟩), .advance 1, .advance 1, .advance 1, .advance 1, .advance 0,
         .call 2 (.read (-1)), .advance 2, .advance 2, .advance 2] = some (history, s) ∧
         ReadAwake s := by
  refine exists_exec_from (fun _ _ _ => True) (by decide +kernel) ?_
  intro q history s hq he _
  exact run_readAwake hq (.of_exec he)

def Pc.asleepAt (i : Nat) : Pc esize → Bool
  | .postSleep j _ => j == i
  | _ => false

def Pc.owes (i : Nat) : Pc esize → Bool
  | .readRegive t => t.got.any (·.1 == i)
  | .readGive t => t.got.any (·.1 == i)
  | _ => false

/-- A poster asleep on a level waits for a reader: the ring is full, or its signal is
given, or a thread owes it. -/
def PostAwake (s : System esize) : Prop :=
  ∀ i l, s.queue.levels[i]? = some l → l.fullCover = false → (∃ t, (s.pc t).asleepAt i = true) →
    l.isFull = true ∨ 0 < l.writeSignal.val ∨ ∃ t, (s.pc t).owes i = true

inductive WriteEffect (s : System esize) (t i : Nat) (l l' : Level esize) (pc' : Pc esize) :
    Prop where
  | gives (h : 0 < l'.writeSignal.val)
  | fills (h : l'.isFull = true)
  | owes (h : pc'.owes i = true)
  | owed (u : Nat) (hu : u ≠ t) (h : (s.pc u).owes i = true)
  | unused (hpc' : pc'.asleepAt i = false) (h : ∀ u, u ≠ t → (s.pc u).asleepAt i = false)
  | keeps (howes : (s.pc t).owes i = false)
      (hasleep : pc'.asleepAt i = true → (s.pc t).asleepAt i = true)
      (hfull : l.isFull = true → l'.isFull = true)
      (hval : 0 < l.writeSignal.val → 0 < l'.writeSignal.val)

def WriteEffects (s : System esize) (t : Nat) (q' : SwQueue esize) (pc' : Pc esize) : Prop :=
  ∀ i l', q'.levels[i]? = some l' → ∃ l, s.queue.levels[i]? = some l ∧ l'.fullCover = l.fullCover ∧
    l'.writeSignal.maxVal = l.writeSignal.maxVal ∧
      (l.fullCover = false → WriteEffect s t i l l' pc')

structure PostOwed (s : System esize) : Prop where
  binary : ∀ l ∈ s.queue.levels, l.writeSignal.maxVal = 1
  awake : PostAwake s

theorem PostOwed.update (h : PostOwed s) (heffects : WriteEffects s t q' pc') :
    PostOwed ⟨q', update s.pc t pc'⟩ := by
  constructor
  · intro l' hl'
    obtain ⟨i, hi⟩ := mem_iff_getElem?.1 hl'
    obtain ⟨l, hl, -, hmax, -⟩ := heffects i l' hi
    rw [hmax]
    exact h.binary l (mem_of_getElem? hl)
  · intro i l' hl' hcover hasleep
    obtain ⟨l, hl, hcover', -, heffect⟩ := heffects i l' hl'
    rw [hcover'] at hcover
    obtain ⟨v, hv⟩ := hasleep
    change (Function.update s.pc t pc' v).asleepAt i = true at hv
    change _ ∨ _ ∨ ∃ u, (Function.update s.pc t pc' u).owes i = true
    cases heffect hcover with
    | gives hval => exact .inr (.inl hval)
    | fills hfull => exact .inl hfull
    | owes hpc' =>
      refine .inr (.inr ⟨t, ?_⟩)
      rw [update_self]
      exact hpc'
    | owed u hu hpc =>
      refine .inr (.inr ⟨u, ?_⟩)
      rw [update_of_ne hu]
      exact hpc
    | unused hpc' hothers =>
      by_cases hvt : v = t
      · rw [hvt, update_self, hpc'] at hv
        cases hv
      · rw [update_of_ne hvt, hothers v hvt] at hv
        cases hv
    | keeps howes hasleep hfull hval =>
      have hbefore : (s.pc v).asleepAt i = true := by
        by_cases hvt : v = t
        · rw [hvt, update_self] at hv
          rw [hvt]
          exact hasleep hv
        · rw [update_of_ne hvt] at hv
          exact hv
      rcases h.awake i l hl hcover ⟨v, hbefore⟩ with hl | hl | ⟨u, hu⟩
      · exact .inl (hfull hl)
      · exact .inr (.inl (hval hl))
      · refine .inr (.inr ⟨u, ?_⟩)
        have hut : u ≠ t := by
          rintro rfl
          rw [howes] at hu
          cases hu
        rw [update_of_ne hut]
        exact hu

theorem WriteEffects.of_eq (hlevels : q'.levels = s.queue.levels)
    (howes : ∀ i, (s.pc t).owes i = true → pc'.owes i = true)
    (hasleep : ∀ i, pc'.asleepAt i = true → (s.pc t).asleepAt i = true) :
    WriteEffects s t q' pc' := by
  intro i l hl
  rw [hlevels] at hl
  refine ⟨l, hl, rfl, rfl, ?_⟩
  intro _
  cases hpc : (s.pc t).owes i with
  | true => exact .owes (howes i hpc)
  | false => exact .keeps hpc (hasleep i) id id

theorem WriteEffects.onLevel (hq : s.queue.onLevel k f = some q') (howes : ∀ i, i ≠ k →
    (s.pc t).owes i = false) (hasleep : ∀ i, pc'.asleepAt i = true → (s.pc t).asleepAt i = true)
    (hf : ∀ l l', s.queue.levels[k]? = some l → f l = some l' → l'.fullCover = l.fullCover ∧
      l'.writeSignal.maxVal = l.writeSignal.maxVal ∧
    (l.fullCover = false → WriteEffect s t k l l' pc')) : WriteEffects s t q' pc' := by
  obtain ⟨l, l', hl, hl', rfl⟩ := onLevel_inv hq
  intro i l₁ hi
  rw [getElem?_set_of_some hl] at hi
  split at hi
  · rename_i hik
    subst hik
    cases hi
    exact ⟨l, hl, hf l l' hl hl'⟩
  · rename_i hik
    exact ⟨l₁, hi, rfl, rfl, fun _ => .keeps (howes i (Ne.symm hik)) (hasleep i) id id⟩

def OthersAsleep (s : System esize) (t i : Nat) : Prop := ∃ u, u ≠ t ∧ (s.pc u).asleepAt i = true

def Owed (s : System esize) (i : Nat) : Prop := ∃ u, (s.pc u).owes i = true

/-- The next part of thread `t`, which stands at `pc`, takes no wake-up that another
poster of the level needs, and makes no room that no poster is told of. -/
def Pc.Considerate (s : System esize) (t : Nat) (pc : Pc esize) : Prop :=
  ∀ i l, s.queue.levels[i]? = some l → l.fullCover = false → OthersAsleep s t i →
    match pc with
    | .postTry k _ | .postSleep k _ => k = i → 0 < l.writeSignal.val → l.isFull = true ∨ Owed s i
    -- the write into a full ring empties it, unless the ring has one place only
    | .postWrite k _ =>
        k = i → l.isFull = true → 0 < l.writeSignal.val ∨ Owed s i ∨ l.next l.read = l.read
    | .clearSection level => clears level i → 0 < l.writeSignal.val ∨ Owed s i ∨ l.next 0 = 0
    | _ => True

def Considerate (s : System esize) : Action esize → Prop
  | .call _ _ => True
  | .advance t => (s.pc t).Considerate s t
  | .stray _ effect => ∀ i l, s.queue.levels[i]? = some l → effect i l.writeSignal = l.writeSignal

/-- What the posters of a level rely on is still there when thread `t`, which owes
nothing to them and does not sleep, has run its part. -/
theorem WriteEffect.of_considerate (howes : (s.pc t).owes i = false)
    (hasleep : pc'.asleepAt i = false)
    (h : OthersAsleep s t i → l'.isFull = true ∨ 0 < l'.writeSignal.val ∨ Owed s i) :
    WriteEffect s t i l l' pc' := by
  by_cases hothers : OthersAsleep s t i
  · rcases h hothers with hfull | hval | ⟨u, hu⟩
    · exact .fills hfull
    · exact .gives hval
    · refine .owed u ?_ hu
      rintro rfl
      rw [howes] at hu
      cases hu
  · refine .unused hasleep ?_
    intro u hu
    rw [← Bool.not_eq_true]
    intro hpc
    exact hothers ⟨u, hu, hpc⟩

theorem PostOwed.others (h : PostOwed s)
    (hl : s.queue.levels[i]? = some l) (hcover : l.fullCover = false)
    (hothers : OthersAsleep s t i) : l.isFull = true ∨ 0 < l.writeSignal.val ∨ Owed s i := by
  obtain ⟨u, -, hu⟩ := hothers
  exact h.awake i l hl hcover ⟨u, hu⟩

theorem WriteEffects.wait (h : PostOwed s)
    (howes : ∀ i, (s.pc t).owes i = false) (hasleep : ∀ i, pc'.asleepAt i = false)
    (hkeep : ∀ l, s.queue.levels[k]? = some l → l.fullCover = false → OthersAsleep s t k →
      0 < l.writeSignal.val → l.isFull = true ∨ Owed s k)
    (hq : (s.queue.onLevel k fun l => do
      let (_, writeSignal) ← swSignalWait l.writeSignal timeout
      some { l with writeSignal }) = some q') : WriteEffects s t q' pc' := by
  apply WriteEffects.onLevel hq (fun i _ => howes i)
  · intro i hpc'
    rw [hasleep i] at hpc'
    cases hpc'
  · intro l l' hl hl'
    obtain ⟨⟨result, signal⟩, hwait, hl'⟩ := bind_eq_some_iff.1 hl'
    cases hl'
    rw [swSignalWait] at hwait
    split at hwait
    · rename_i hval
      cases hwait
      refine ⟨rfl, rfl, ?_⟩
      intro hcover
      apply WriteEffect.of_considerate (howes k) (hasleep k)
      intro hothers
      rcases hkeep l hl hcover hothers hval with hfull | howed
      · exact .inl hfull
      · exact .inr (.inr howed)
    · split at hwait
      · cases hwait
      · cases hwait
        refine ⟨rfl, rfl, ?_⟩
        intro hcover
        exact .of_considerate (howes k) (hasleep k) (h.others hl hcover)

theorem put_inv {l l' : Level esize} (h : l.put e = some l') :
    l'.fullCover = l.fullCover ∧ l'.writeSignal = l.writeSignal ∧
      (l.fullCover = false → l'.isFull = (l.next (l.next l.write) == l.read)) := by
  obtain ⟨elements, -, h⟩ := bind_eq_some_iff.1 h
  cases h
  refine ⟨rfl, rfl, ?_⟩
  intro hcover
  simp [Level.isFull, Level.next, hcover]

theorem WriteEffects.postTest (hpc : s.pc t = .postTest k e)
    (htest : postTest s.queue k = some isFull) :
    WriteEffects s t s.queue (if isFull then .postSleep k e else .postWrite k e) := by
  obtain ⟨l, hl, htest⟩ := bind_eq_some_iff.1 htest
  intro i l₁ hl₁
  refine ⟨l₁, hl₁, rfl, rfl, ?_⟩
  intro hcover
  cases isFull with
  | false => exact .keeps (by rw [hpc]; rfl) (fun hi => by cases hi) id id
  | true =>
    by_cases hi : k = i
    · subst hi
      cases some.inj (hl.symm.trans hl₁)
      have hfull := some.inj htest
      rw [hcover] at hfull
      exact .fills hfull
    · exact .keeps (by rw [hpc]; rfl) (fun hasleep => absurd (beq_iff_eq.1 hasleep) hi) id id

theorem WriteEffects.postWrite (h : PostOwed s) {t k : Nat}
    (hpc : s.pc t = .postWrite k e) (hkeep : (Pc.postWrite k e).Considerate s t)
    (hq : postWrite s.queue k e = some q') : WriteEffects s t q' .postGive := by
  have hnone : ∀ i, (s.pc t).owes i = false := by simp [hpc, Pc.owes]
  apply WriteEffects.onLevel hq (fun i _ => hnone i) (fun i hi => by cases hi)
  intro l l' hl hput
  obtain ⟨hcover', hsignal, hfull'⟩ := put_inv hput
  refine ⟨hcover', by rw [hsignal], ?_⟩
  intro hcover
  apply WriteEffect.of_considerate (hnone k) rfl
  intro hothers
  rw [hsignal]
  rcases h.others hl hcover hothers with hfull | hval | howed
  · rcases hkeep k l hl hcover hothers rfl hfull with hval | howed | hone
    · exact .inr (.inl hval)
    · exact .inr (.inr howed)
    · have hwrite : l.next l.write = l.read := beq_iff_eq.1 hfull
      refine .inl ?_
      rw [hfull' hcover, hwrite, hone, beq_self_eq_true]
  · exact .inr (.inl hval)
  · exact .inr (.inr howed)

theorem WriteEffects.readTake {t : Nat} (hpc : s.pc t = .readTake)
    (hq : readTake s.queue = some (taken, q')) : WriteEffects s t q' (.readRegive taken) := by
  have hnone : ∀ i, (s.pc t).owes i = false := by simp [hpc, Pc.owes]
  obtain ⟨⟨taken', levels⟩, hscan, hq⟩ := bind_eq_some_iff.1 hq
  cases hq
  rcases readScan_takes rfl hscan with ⟨hgot, rfl⟩ | ⟨k, l, e, hl, hgot, rfl⟩
  · exact .of_eq rfl (fun i hi => by rw [hnone i] at hi; cases hi) (fun i hi => by cases hi)
  · intro i l' hl'
    rw [getElem?_set_of_some hl] at hl'
    split at hl'
    · rename_i hik
      subst hik
      cases hl'
      refine ⟨l, hl, rfl, rfl, fun _ => .owes ?_⟩
      simp [Pc.owes, hgot]
    · exact ⟨l', hl', rfl, rfl, fun _ => .keeps (hnone i) (fun hi => by cases hi) id id⟩

theorem WriteEffects.readGive (h : PostOwed s) {t : Nat}
    (hpc : s.pc t = .readGive taken) (hq : readGive s.queue taken = some q') :
    WriteEffects s t q' .idle := by
  rw [Queue.readGive] at hq
  split at hq
  · rename_i hgot
    cases hq
    exact .of_eq rfl (by simp [hpc, Pc.owes, hgot]) (fun i hi => by cases hi)
  · rename_i k e hgot
    apply WriteEffects.onLevel hq _ (fun i hi => by cases hi)
    · intro l l' hl hl'
      cases hl'
      refine ⟨rfl, swSignalGive_maxVal _, ?_⟩
      intro _
      exact .gives (swSignalGive_pos (h.binary l (mem_of_getElem? hl)))
    · intro i hi
      simpa [hpc, Pc.owes, hgot] using Ne.symm hi

theorem WriteEffects.clearSection (hpc : s.pc t = .clearSection level)
    (hkeep : (Pc.clearSection level).Considerate s t) :
    WriteEffects s t (clearSection s.queue level) .clearGive := by
  have hnone : ∀ i, (s.pc t).owes i = false := by simp [hpc, Pc.owes]
  intro i l' hl'
  obtain ⟨l, hl, ⟨hclears, rfl⟩ | rfl⟩ := clearSection_level hl'
  · refine ⟨l, hl, rfl, rfl, ?_⟩
    intro hcover
    apply WriteEffect.of_considerate (hnone i) rfl
    intro hothers
    rcases hkeep i l hl hcover hothers hclears with hval | howed | hone
    · exact .inr (.inl hval)
    · exact .inr (.inr howed)
    · exact .inl (beq_iff_eq.2 hone)
  · exact ⟨l', hl, rfl, rfl, fun _ => .keeps (hnone i) (fun hi => by cases hi) id id⟩

theorem proceed_writeEffects (h : PostOwed s)
    (hkeep : (s.pc t).Considerate s t) (hp : proceed s.queue (s.pc t) = some (event, pc', q')) :
    WriteEffects s t q' pc' := by
  obtain ⟨pc, hpc⟩ : ∃ pc, s.pc t = pc := ⟨_, rfl⟩
  rw [hpc] at hp hkeep
  cases pc with
  | idle | clearGive => cases hp
  | postTry k e | postSleep k e =>
    obtain ⟨q₁, hq₁, hp⟩ := bind_eq_some_iff.1 hp
    cases hp
    apply WriteEffects.wait h (by simp [hpc, Pc.owes]) (fun _ => rfl) _ hq₁
    intro l hl hcover hothers
    exact hkeep k l hl hcover hothers rfl
  | postTest k e =>
    obtain ⟨isFull, htest, hp⟩ := bind_eq_some_iff.1 hp
    cases hp
    exact .postTest hpc htest
  | postWrite k e =>
    obtain ⟨q₁, hq₁, hp⟩ := bind_eq_some_iff.1 hp
    cases hp
    exact .postWrite h hpc hkeep hq₁
  | postGive =>
    cases hp
    exact .of_eq rfl (by simp [hpc, Pc.owes]) (fun i hi => by cases hi)
  | readWait timeout =>
    obtain ⟨⟨result, q₁⟩, hq₁, hp⟩ := bind_eq_some_iff.1 hp
    obtain ⟨⟨result', signal⟩, -, hq₁⟩ := bind_eq_some_iff.1 hq₁
    cases hq₁
    cases hp
    apply WriteEffects.of_eq rfl (by simp [hpc, Pc.owes])
    intro i hi
    split at hi <;> cases hi
  | readTake =>
    obtain ⟨⟨taken, q₁⟩, hq₁, hp⟩ := bind_eq_some_iff.1 hp
    cases hp
    exact .readTake hpc hq₁
  | readRegive taken =>
    cases hp
    exact .of_eq readRegive_levels (by simp [hpc, Pc.owes]) (fun i hi => by cases hi)
  | readGive taken =>
    obtain ⟨q₁, hq₁, hp⟩ := bind_eq_some_iff.1 hp
    cases hp
    exact .readGive h hpc hq₁
  | clearSection level =>
    cases hp
    exact .clearSection hpc hkeep

theorem enter_resting (h : enter q c = some pc) : pc.asleepAt i = false := by
  cases c with
  | post level e =>
    obtain ⟨answer, -, h⟩ := bind_eq_some_iff.1 h
    cases answer <;> cases h <;> rfl
  | read timeout | clear level =>
    cases h
    split <;> rfl

theorem PostOwed.step (h : PostOwed s)
    (hkeep : Considerate s a) (hs : step s a = some (event, s')) : PostOwed s' := by
  obtain ⟨q', pc', hmove, rfl⟩ := step_inv hs
  cases hmove with
  | call hidle hc =>
    apply h.update (.of_eq rfl (by simp [Action.thread, hidle, Pc.owes]) _)
    intro i hi
    rw [enter_resting hc] at hi
    cases hi
  | advance hp => exact h.update (proceed_writeEffects h hkeep hp)
  | @stray t effect hclear =>
    have hsame : (clearGive s.queue effect).levels = s.queue.levels := by
      apply ext_getElem?
      intro i
      rw [clearGive, getElem?_mapIdx]
      cases hl : s.queue.levels[i]? with
      | none => rfl
      | some l =>
        change some { l with writeSignal := effect i l.writeSignal } = some l
        rw [hkeep i l hl]
    exact h.update (.of_eq hsame (by simp [Action.thread, hclear, Pc.owes])
      (fun i hi => by cases hi))

theorem postOwed_start (hq : swQueueCreateWithPriority esize config = some q) :
    PostOwed (.start q) := by
  rw [swQueueCreateWithPriority] at hq
  split at hq
  · cases hq
  · cases hq
    constructor
    · intro l hl
      obtain ⟨c, -, rfl⟩ := mem_map.1 hl
      rfl
    · rintro i l - - ⟨t, ht⟩
      cases ht

/-- As long as every step is considerate, no poster sleeps beside free room. -/
theorem run_postAwake {config : List (Int × Bool)} {history : List (Action esize × Event esize)}
    (hq : swQueueCreateWithPriority esize config = some q)
    (hrun : Run step Considerate (.start q) history s) : PostAwake s := by
  have howed : PostOwed s := by
    apply Run.invariant (fun _ s => PostOwed s) (postOwed_start hq) _ hrun
    intro history s a event s' h hkeep hs
    exact h.step hkeep hs
  exact howed.awake

theorem run_idle {guard : System esize → Action esize → Prop}
    (hrun : Run step guard (.start q) history s) (ht : ∀ p ∈ history, p.1.thread ≠ t) :
    s.pc t = .idle := by
  induction hrun with
  | start => rfl
  | next _ _ hs ih =>
    rename_i a event s' _ _
    have hpc := ih fun p hp => ht p (mem_append_left _ hp)
    have hne : t ≠ a.thread := Ne.symm (ht (a, event) (by simp))
    obtain ⟨q', pc', -, rfl⟩ := step_inv hs
    exact (update_of_ne hne _ _).trans hpc

theorem idle_of_ne {guard : System esize → Action esize → Prop}
    (hrun : Run step guard (.start q) history s) (hthreads : ∀ p ∈ history, p.1.thread < n)
    (hothers : ∀ t ∈ range n, t ≠ k → s.pc t = .idle) (t : Nat) (ht : t ≠ k) : s.pc t = .idle := by
  by_cases hlt : t < n
  · exact hothers t (mem_range.2 hlt) ht
  · apply run_idle hrun
    intro p hp heq
    have := hthreads p hp
    omega

def undisturbing (s : System esize) : Action esize → Bool
  | .call _ _ => true
  | .advance t =>
      match s.pc t with
      | .postTry i _ => (s.queue.levels[i]?).all (·.writeSignal.val == 0)
      | .postSleep _ _ => false
      | .postWrite i _ => (s.queue.levels[i]?).all (!·.isFull)
      | .clearSection _ => false
      | _ => true
  | .stray _ _ => false

theorem considerate_of_undisturbing (h : undisturbing s a = true) : Considerate s a := by
  cases a with
  | call t c => trivial
  | advance t =>
    intro i l hl _ _
    cases hpc : s.pc t with
    | postTry k e =>
      rintro rfl hval
      simp only [undisturbing, hpc, hl, all_some, beq_iff_eq] at h
      omega
    | postWrite k e =>
      rintro rfl hfull
      simp [undisturbing, hpc, hl, hfull] at h
    | postSleep k e | clearSection level => simp [undisturbing, hpc] at h
    | _ => trivial
  | stray t effect => cases h

/-- The only poster asleep is woken by the reader that makes room for it. -/
theorem run_postAwake_woken : ∃ (q : SwQueue 1) (history : List (Action 1 × Event 1))
    (s : System 1), swQueueCreateWithPriority 1 [(2, false)] = some q ∧
      Run step Considerate (.start q) history s ∧ s.pc 2 = .postWrite 0 ⟨[2], rfl⟩ ∧
      PostAwake s := by
  obtain ⟨q, history, s, hq, he, hthreads, hothers, hstep⟩ : ∃ q history s,
      swQueueCreateWithPriority 1 [(2, false)] = some q ∧
        exec step (fun s a => undisturbing s a = true) (.start q)
        [.call 0 (.post 0 ⟨[1], rfl⟩), .advance 0, .advance 0, .advance 0, .advance 0,
         .call 2 (.post 0 ⟨[2], rfl⟩), .advance 2, .advance 2,
         .call 1 (.read (-1)), .advance 1, .advance 1, .advance 1, .advance 1] = some (history, s) ∧
      (∀ p ∈ history, p.1.thread < 3) ∧ (∀ t ∈ range 3, t ≠ 2 → s.pc t = .idle) ∧
        (step s (.advance 2)).map (fun e => e.2.pc 2) = some (.postWrite 0 ⟨[2], rfl⟩) :=
    exists_exec_from _ (by decide +kernel) fun _ _ h => h
  obtain ⟨⟨event, s'⟩, hs, hwoken⟩ := map_eq_some_iff.1 hstep
  have hbefore := Run.mono (fun _ _ => considerate_of_undisturbing) (Run.of_exec he)
  have hidle := idle_of_ne hbefore hthreads hothers
  have hrun : Run step Considerate (.start q) (history ++ [(.advance 2, event)]) s' := by
    apply hbefore.next _ hs
    rintro i l - - ⟨u, hu, hpc⟩
    rw [hidle u hu] at hpc
    cases hpc
  exact ⟨q, _, s', hq, hrun, hwoken, run_postAwake hq hrun⟩

/-- The actions of two posters that wait for room and of a reader that makes room for
both: its second wake-up is lost, since the first one is not taken yet. -/
def sharedWakeUp : List (Action 1) :=
  [.call 0 (.post 0 ⟨[1], rfl⟩), .advance 0, .advance 0, .advance 0, .advance 0,
   .call 0 (.post 0 ⟨[2], rfl⟩), .advance 0, .advance 0, .advance 0, .advance 0,
   .call 1 (.post 0 ⟨[3], rfl⟩), .advance 1, .advance 1,
   .call 2 (.post 0 ⟨[4], rfl⟩), .advance 2, .advance 2,
   .call 3 (.read (-1)), .advance 3, .advance 3, .advance 3, .advance 3,
   .call 3 (.read (-1)), .advance 3, .advance 3, .advance 3, .advance 3,
   .advance 1, .advance 1, .advance 1]

/-- One of the two posters sleeps on, with a place free and nobody left to wake it. -/
theorem poster_sleeps_beside_room : ∃ (q : SwQueue 1) (history : List (Action 1 × Event 1))
    (s : System 1), swQueueCreateWithPriority 1 [(3, false)] = some q ∧
      exec step (fun _ a => a.isClear = false) (.start q) sharedWakeUp = some (history, s) ∧
      s.pc 2 = .postSleep 0 ⟨[4], rfl⟩ ∧
      s.queue.levels.map (fun l => (l.contents, l.isFull, l.writeSignal.val)) =
      [([⟨[3], rfl⟩], false, 0)] ∧ (∀ t, t ≠ 2 → s.pc t = .idle) ∧ ¬PostAwake s := by
  refine exists_exec_from (fun _ history s => decide (s.pc 2 = .postSleep 0 ⟨[4], rfl⟩ ∧
    (∀ p ∈ history, p.1.thread < 4) ∧ (∀ t ∈ range 4, t ≠ 2 → s.pc t = .idle) ∧
    s.queue.levels.map (fun l => (l.contents, l.isFull, l.writeSignal.val)) =
      [([⟨[3], rfl⟩], false, 0)] ∧
    s.queue.levels.map Level.fullCover = [false])) (by decide +kernel) ?_
  intro q history s _ he htest
  obtain ⟨h2, hthreads, hothers, hlevels, hcovers⟩ := of_decide_eq_true htest
  have hidle := idle_of_ne (.of_exec he) hthreads hothers
  refine ⟨h2, hlevels, hidle, ?_⟩
  intro hawake
  obtain ⟨l, hl⟩ : ∃ l, s.queue.levels = [l] :=
    length_eq_one_iff.1 (by simpa using congrArg List.length hcovers)
  rw [hl] at hlevels hcovers
  simp only [map_cons, map_nil, cons.injEq, Prod.mk.injEq, and_true] at hlevels hcovers
  rcases hawake 0 l (by rw [hl]; rfl) hcovers ⟨2, by rw [h2]; rfl⟩ with hfull | hval | ⟨t, ht⟩
  · rw [hlevels.2.1] at hfull
    cases hfull
  · omega
  · by_cases ht2 : t = 2
    · rw [ht2, h2] at ht
      cases ht
    · rw [hidle t ht2] at ht
      cases ht

end SwApi.Queue
