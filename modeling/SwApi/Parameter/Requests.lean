import SwApi.Parameter.Sections

/-! No request to save is lost: whenever the saving thread waits for the first time and the
signal is not given, there is nothing that it was asked to save. -/
namespace SwApi.Parameter
open Library Os Option

/-- The fields from which the saving thread learns what to do are the same. -/
structure SameFlags (t t' : Table) : Prop where
  saveauto : t'.saveauto = t.saveauto
  signal : t'.signal = t.signal
  modified : t'.modified = t.modified

theorem SameFlags.refl (t : Table) : SameFlags t t := ⟨rfl, rfl, rfl⟩

theorem SameFlags.trans (h : SameFlags t t') (h' : SameFlags t' t'') : SameFlags t t'' :=
  ⟨h'.saveauto.trans h.saveauto, h'.signal.trans h.signal, h'.modified.trans h.modified⟩

theorem append_flags (h : t₀.append p = some t') (hsame : SameFlags t t₀) : SameFlags t t' := by
  obtain ⟨plist, rfl⟩ := insertQsort_inv h
  exact ⟨hsame.saveauto, hsame.signal, hsame.modified⟩

theorem getAt_flags (h : getAt alloc t i b reply = some (r, text, t')) : SameFlags t t' := by
  obtain ⟨v, n, d, rfl, -⟩ := getAt_inv h
  exact ⟨rfl, rfl, rfl⟩

theorem get_flags (h : swParameterGet alloc t name b reply = some (r, text, t')) :
    SameFlags t t' := by
  rcases get_inv h with ⟨i, -, hget⟩ | ⟨-, rfl | ⟨d, t₁, i, -, -, happend, -, hget⟩⟩
  · exact getAt_flags hget
  · exact .refl _
  · exact SameFlags.trans (append_flags happend ⟨rfl, rfl, rfl⟩) (getAt_flags hget)

/-- Nothing is said to the saving thread, or the signal is given. -/
def Announces (t t' : Table) : Prop :=
  t'.saveauto = t.saveauto ∧ t'.signal = t.signal ∨ t'.signal = swSignalGive t.signal

theorem SameFlags.announces (h : SameFlags t t') : Announces t t' := .inl ⟨h.saveauto, h.signal⟩

theorem announces_touch (h : t.touch depot = some t') : Announces t t' := by
  obtain ⟨d, -, rfl⟩ := touch_inv h
  cases hauto : d.autosave with
  | false => exact .inl ⟨by simp, by simp⟩
  | true => exact .inr (by simp)

theorem announces_set (h : swParameterSetWithDepot alloc t name value depot false false =
    some (r, t')) : Announces t t' := by
  rcases set_inv h with rfl | ⟨i, -, hwrite⟩ | ⟨-, hinsert⟩
  · exact (SameFlags.refl t').announces
  · obtain ⟨v, n, htouch⟩ := hwrite.written
    have htold := announces_touch htouch
    exact htold
  · obtain ⟨v, d, realtime, n, t₁, -, htouch, happend⟩ := hinsert.inserted
    have htold := announces_touch htouch
    have hflags := append_flags happend (.refl t₁)
    rw [Announces, hflags.saveauto, hflags.signal]
    exact htold

theorem announces_delete (h : swParameterDelete t name = some (r, t')) : Announces t t' := by
  rcases delete_inv h with rfl | ⟨i, d, -, -, -, -, -, -, hsaveauto, hsignal⟩
  · exact .inl ⟨rfl, rfl⟩
  · exact .inl ⟨hsaveauto, hsignal⟩

theorem announces_leaves {work : Work} (h : work.Leaves alloc t t') : Announces t t' := by
  cases h with
  | attempts _ n => exact .inl ⟨rfl, rfl⟩
  | get h => exact (get_flags h).announces
  | set n h =>
    have htold := announces_set h
    exact htold
  | delete h => exact announces_delete h
  | deleteAll h =>
    obtain ⟨d, -, h⟩ := bind_eq_some_iff.1 h
    cases h
    exact .inl ⟨rfl, rfl⟩
  | save =>
    unfold swParameterSave
    split
    · exact .inr rfl
    · exact .inl ⟨rfl, rfl⟩

/-- A flag that is set is on its way to the saving thread: it has been woken, or will be. -/
structure Heard (s : System) : Prop where
  binary : s.table.signal.maxVal = 1
  woken : s.saver = .firstWait → s.saveall = true ∨ s.table.saveauto = true → 0 < s.table.signal.val

theorem Heard.work (h : Heard s) {work : Work} (hwork : work.Leaves alloc s.table t)
    (hsaver : s'.saver = s.saver) (htable : s'.table = t)
    (hsaveall : s'.saveall = s.saveall ∨ t.signal = swSignalGive s.table.signal) : Heard s' := by
  subst htable
  rcases announces_leaves hwork with ⟨hauto, hsignal⟩ | hgiven
  · rw [hsignal] at hsaveall
    refine ⟨by rw [hsignal]; exact h.binary, ?_⟩
    intro hwait hflag
    rw [hsaver] at hwait
    rw [hauto] at hflag
    rw [hsignal]
    rcases hsaveall with hall | hgiven
    · rw [hall] at hflag
      exact h.woken hwait hflag
    · rw [hgiven]
      exact swSignalGive_pos h.binary
  · refine ⟨by rw [hgiven, swSignalGive_maxVal]; exact h.binary, ?_⟩
    intro _ _
    rw [hgiven]
    exact swSignalGive_pos h.binary

theorem saveLoop_inv (chosen : Depot → Bool) (ds : List Depot) (s : System) :
    ∃ modified saved,
    saveLoop chosen ds s = { s with table := { s.table with modified }, saved } := by
  induction ds generalizing s with
  | nil => exact ⟨s.table.modified, s.saved, rfl⟩
  | cons d ds ih =>
    rw [saveLoop]
    split
    · obtain ⟨modified, saved, hloop⟩ := ih _
      exact ⟨modified, saved, hloop⟩
    · exact ih s

theorem saveSection_same (s : System) : SameParas s.table (saveSection s).table ∧
    (saveSection s).place = s.place ∧
      (saveSection s).saveall = false ∧ (saveSection s).table.saveauto = false ∧
      (saveSection s).table.signal = s.table.signal := by
  unfold saveSection
  split
  · obtain ⟨modified, saved, hloop⟩ := saveLoop_inv (fun _ => true) s.table.depots s
    rw [hloop]
    exact ⟨⟨rfl, rfl, rfl, rfl⟩, rfl, rfl, rfl, rfl⟩
  · rename_i hall
    split
    · obtain ⟨modified, saved, hloop⟩ := saveLoop_inv (fun d => d.autosave) s.table.depots s
      rw [hloop]
      exact ⟨⟨rfl, rfl, rfl, rfl⟩, rfl, Bool.eq_false_iff.2 hall, rfl, rfl⟩
    · rename_i hauto
      exact ⟨⟨rfl, rfl, rfl, rfl⟩, rfl, Bool.eq_false_iff.2 hall, Bool.eq_false_iff.2 hauto, rfl⟩

theorem swSignalWait_maxVal (h : swSignalWait signal timeout = some (r, signal')) :
    signal'.maxVal = signal.maxVal := by
  unfold swSignalWait at h
  split at h
  · cases h
    rfl
  · split at h
    · cases h
    · cases h
      rfl

theorem Heard.saver (h : Heard s) (hproc : paramSaveProc s = some s') : Heard s' := by
  unfold paramSaveProc at hproc
  split at hproc
  · obtain ⟨⟨r, signal⟩, hwait, hproc⟩ := bind_eq_some_iff.1 hproc
    cases hproc
    exact ⟨(swSignalWait_maxVal hwait).trans h.binary, fun hfirst => nomatch hfirst⟩
  · obtain ⟨⟨r, signal⟩, hwait, hproc⟩ := bind_eq_some_iff.1 hproc
    cases hproc
    refine ⟨(swSignalWait_maxVal hwait).trans h.binary, ?_⟩
    intro hfirst
    dsimp only at hfirst
    split at hfirst <;> cases hfirst
  · cases hproc
    obtain ⟨-, -, hall, hauto, hsignal⟩ := saveSection_same s
    refine ⟨by rw [hsignal]; exact h.binary, ?_⟩
    rintro - (hflag | hflag)
    · exact absurd (hflag.symm.trans hall) Bool.noConfusion
    · exact absurd (hflag.symm.trans hauto) Bool.noConfusion

theorem saveall_inv (t : Table) (old : Bool) (request : Request) : request.saveall t old = old ∨
      ∃ t', t' = (swParameterSave t false).2 ∧ request = .save ∧
      t'.signal = swSignalGive t.signal := by
  cases request with
  | save =>
    by_cases hany : t.depots.any t.modified
    · exact .inr ⟨_, rfl, rfl, by rw [swParameterSave, if_pos hany]⟩
    · exact .inl (by rw [Request.saveall, swParameterSave, if_neg hany])
  | _ => exact .inl rfl

theorem Heard.step (h : Heard s) (hstep : step alloc s a = some (event, s')) : Heard s' := by
  cases step_inv hstep with
  | @call thread request place t hidle henter =>
    refine h.work (enter_leaves henter) rfl rfl ?_
    rcases saveall_inv s.table s.saveall request with hsame | ⟨t', rfl, rfl, hgiven⟩
    · exact .inl hsame
    · cases henter
      exact .inr hgiven
  | advance hproceed => exact h.work (proceed_leaves hproceed) rfl rfl (.inl rfl)
  | saver hproc => exact h.saver hproc

def Op.SetsUp : Op → Prop
  | .register _ _ _ | .setDefault _ _ _ | .updateWithDepot _ _ _ _ _ _ | .setRealtime _ _ => True
  | _ => False

instance (op : Op) : Decidable op.SetsUp := by
  rcases op with _ | _ <;> dsimp only [Op.SetsUp] <;> infer_instance

structure SetUp (alloc : Alloc) (t : Table) : Prop where
  reached : ∃ history, Run (perform alloc) (fun t op => Started t op ∧
    op.SetsUp) swParameterInit history t
  depots : t.depots ≠ []

theorem load_flags (h : swParameterSetWithDepot alloc t name value depot true onlyDefault =
    some (r, t')) : SameFlags t t' := by
  obtain ⟨found, -, h⟩ := bind_eq_some_iff.1 h
  cases found with
  | none =>
    rcases setNew_cases h with rfl | ⟨-, v, d, realtime, n, t₁, -, hsame, happend⟩
    · exact .refl _
    · cases hsame
      exact append_flags happend ⟨rfl, rfl, rfl⟩
  | some i =>
    rcases setFound_cases h with rfl | ⟨-, -, -, -, v, n, realtime, rfl⟩
    · exact .refl _
    · exact ⟨rfl, rfl, rfl⟩

theorem spreadAll_flags (h : spreadAll alloc d t loaded = some t') : SameFlags t t' := by
  induction loaded generalizing t with
  | nil =>
    cases h
    exact .refl _
  | cons e rest ih =>
    obtain ⟨⟨r, t₁⟩, hset, h⟩ := bind_eq_some_iff.1 h
    exact (load_flags hset).trans (ih h)

theorem updateWithDepot_flags {default : Option CString}
    (h : swParameterUpdateWithDepot alloc t name default readonly realtime depot reply =
    some (r, t')) : SameFlags t t' := by
  unfold swParameterUpdateWithDepot at h
  split at h
  · rename_i default d
    split at h
    · cases h
      exact .refl t
    · obtain ⟨found, -, h⟩ := bind_eq_some_iff.1 h
      cases found with
      | some i =>
        dsimp only at h
        split at h
        · obtain ⟨v, n, hkept⟩ := attempts_keptValue alloc t d (t.plist i).value default
          rw [hkept] at h
          cases h
          exact ⟨rfl, rfl, rfl⟩
        · obtain ⟨v, n, hmoved⟩ := attempts_movedValue alloc t d (t.plist i).value default reply
          rw [hmoved] at h
          cases h
          exact ⟨rfl, rfl, rfl⟩
      | none =>
        dsimp only at h
        split at h
        · obtain ⟨v, n, hfirst⟩ :=
            attempts_firstValue alloc (swMemStrdup alloc t name).2 d readonly default reply
          rw [hfirst] at h
          obtain ⟨t₁, happend, h⟩ := bind_eq_some_iff.1 h
          cases h
          exact append_flags happend ⟨rfl, rfl, rfl⟩
        · cases h
          exact .refl t
  · cases h
    exact .refl t

theorem setRealtime_flags
    (h : swParameterSetRealtime alloc t name realtime = some (r, t')) : SameFlags t t' := by
  obtain ⟨found, -, h⟩ := bind_eq_some_iff.1 h
  cases found with
  | some i =>
    cases h
    exact ⟨rfl, rfl, rfl⟩
  | none =>
    dsimp only at h
    split at h
    · obtain ⟨java, -, h⟩ := bind_eq_some_iff.1 h
      split at h
      · obtain ⟨t₁, happend, h⟩ := bind_eq_some_iff.1 h
        cases h
        exact append_flags happend ⟨rfl, rfl, rfl⟩
      · cases h
        exact .refl t
    · cases h
      exact .refl t

theorem setsUp_flags {op : Op} (hop : op.SetsUp) (h : perform alloc t op = some (r, t')) :
    SameFlags t t' := by
  cases op with
  | register d isdefault loaded =>
    simp only [perform, swParameterRegisterDepot] at h
    split at h
    · cases h
      exact .refl t
    · split at h
      · cases h
        exact .refl t
      · obtain ⟨t₁, hspread, h⟩ := bind_eq_some_iff.1 h
        cases h
        have hflags := spreadAll_flags hspread
        exact ⟨hflags.saveauto, hflags.signal, hflags.modified⟩
  | setDefault name value depot => exact load_flags h
  | updateWithDepot name default readonly realtime depot reply => exact updateWithDepot_flags h
  | setRealtime name realtime => exact setRealtime_flags h
  | set _ _ | add _ _ _ | get _ _ _ | delete _ | deleteAll => exact hop.elim

theorem exists_setUp (ops : List Op) (guard : System → Action → Prop) [∀ s a, Decidable (guard s a)]
    (actions : List Action) (test : Table → List (Action × Event) → System → Prop)
    [∀ t history s, Decidable (test t history s)]
    (h : ((exec (perform fun _ => true) (fun t op => Started t op ∧ op.SetsUp)
        swParameterInit ops).any fun r =>
      r.2.depots != [] && (exec (step fun _ => true) guard (.start r.2) actions).any fun e =>
        decide (test r.2 e.1 e.2)) = true) : ∃ t history s, SetUp (fun _ => true) t ∧
      exec (step fun _ => true) guard (.start t) actions = some (history, s) ∧
        test t history s := by
  obtain ⟨⟨before, t⟩, hops, h⟩ := (any_eq_true ..).1 h
  obtain ⟨hdepots, h⟩ := Bool.and_eq_true_iff.1 h
  obtain ⟨history, s, he, htest⟩ := exists_of_exec _ _ _ _ (test t) h
  exact ⟨t, history, s, ⟨⟨before, .of_exec hops⟩, bne_iff_ne.1 hdepots⟩, he, htest⟩

theorem SetUp.flags (h : SetUp alloc t) : SameFlags swParameterInit t := by
  obtain ⟨history, hrun⟩ := h.reached
  apply Run.invariant (fun _ t => SameFlags swParameterInit t) (.refl _) _ hrun
  intro _ t op r t' hflags hop hstep
  exact hflags.trans (setsUp_flags hop.2 hstep)

theorem SetUp.ready (halloc : ∀ k, alloc k = true) (h : SetUp alloc t) : Ready t := by
  obtain ⟨history, hrun⟩ := h.reached
  apply Run.invariant (fun _ t => Ready t) ready_init _ hrun
  intro _ t op r t' hready hop hstep
  obtain ⟨r', t'', heq, hready'⟩ := hready.perform halloc hop.1
  cases some.inj (hstep.symm.trans heq)
  exact hready'

theorem SetUp.heard (h : SetUp alloc t) : Heard (.start t) := by
  refine ⟨?_, ?_⟩
  · rw [System.start, h.flags.signal]
    rfl
  · rintro - (hall | hauto)
    · cases hall
    · rw [System.start, h.flags.saveauto] at hauto
      cases hauto

/-- Whatever the threads do: while the saving thread waits for its first signal and none is
given, nothing is left that it was asked to save. -/
theorem run_nothingLeft {alloc : Alloc} {t : Table} {history : List (Action × Event)} {s : System}
    (hsetup : SetUp alloc t) (hrun : Run (step alloc) (fun _ _ => True) (.start t) history s)
    (hwait : s.saver = .firstWait) (hsignal : s.table.signal.val = 0) :
    s.saveall = false ∧ s.table.saveauto = false := by
  have hheard : Heard s := by
    apply Run.invariant (fun _ s => Heard s) hsetup.heard _ hrun
    intro _ s a event s' h _ hstep
    exact h.step hstep
  have hflag : ¬(s.saveall = true ∨ s.table.saveauto = true) := by
    intro hflag
    have := hheard.woken hwait hflag
    omega
  simpa using hflag

/-- A `save` that comes between the timeout and the lock leaves the signal given behind; the
saving thread wakes once more, finds nothing to do and waits again. -/
theorem run_nothingLeft_strayed : ∃ (t : Table) (history : List (Action × Event)) (s : System),
    SetUp (fun _ => true) t ∧ exec (step fun _ => true) (fun _ _ => True) (.start t)
        [.call 1 (.set (cstring [97]) (some (cstring [49]))), .saver, .saver, .call 2 .save, .saver,
         .saver, .saver, .saver] = some (history, s) ∧ s.saver = .firstWait ∧
      s.table.signal.val = 0 ∧ s.saveall = false ∧ s.table.saveauto = false := by
  obtain ⟨t, history, s, hsetup, he, hwait, hsignal⟩ := exists_setUp
    [.register ⟨1, cstring [102], .file, true⟩ true []] (fun _ _ => True)
    [.call 1 (.set (cstring [97]) (some (cstring [49]))), .saver, .saver, .call 2 .save, .saver,
      .saver, .saver, .saver]
    (fun _ _ s => s.saver = .firstWait ∧ s.table.signal.val = 0) (by decide +kernel)
  exact ⟨t, history, s, hsetup, he, hwait, hsignal,
    run_nothingLeft hsetup (.of_exec he) hwait hsignal⟩

end SwApi.Parameter
