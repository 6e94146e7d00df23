import SwApi.Parameter.Format
import SwApi.Parameter.Requests

/-! What reaches the file of a depot that is saved by itself. A deletion, and a set that takes a
parameter to another depot, leave the saving thread asleep. -/
namespace SwApi.Parameter
open Library Os Option Function

def Table.held (t : Table) (d : Depot) : List Para := t.entries.filter fun p => p.depot = some d

def pairsOf (ps : List Para) : List (Option CString × Option CString) :=
  ps.map fun p => (p.name, p.value)

/-- What the depot was given last to save; before that, what it had at the start. -/
def System.handed (s : System) (t₀ : Table) (d : Depot) : List Para := (s.saved d).getD (t₀.held d)

def Saved (t₀ : Table) (d : Depot) (s : System) : Prop :=
  ∀ e, e ∈ pairsOf (s.handed t₀ d) ↔ e ∈ pairsOf (s.table.held d)

def Work.takes (d : Depot) (t : Table) : Work → Bool
  | .delete name =>
      match swParameterFind t name with
      | some (some i) => (t.plist i).depot == some d && !(t.plist i).readonly
      | _ => false
  | .deleteAll => t.defdepot == some d && (t.held d).any fun p => !p.readonly
  | .set name value (some e) =>
      match swParameterFind t name with
      | some (some i) =>
          (t.plist i).depot == some d && e != d && e.type.toNat < d.type.toNat && value.isSome &&
            writeProtected (t.plist i) == some false
      | _ => false
  | _ => false

def Work.isGet : Work → Bool
  | .get _ => true
  | _ => false

/-- No step takes a parameter from the depot, and none fetches a value from one. -/
def Sparing (d : Depot) (s : System) (a : Action) : Prop :=
  (a.work s).isGet = false ∧ (a.work s).takes d s.table = false
  deriving Decidable

/-- Either the depot's descriptions are the same and what was told is not taken back, or the
saving thread is told of the depot. -/
def Told (d : Depot) (t t' : Table) : Prop :=
  t'.held d = t.held d ∧ (t.modified d = true → t'.modified d = true) ∧
      (t.saveauto = true → t'.saveauto = true) ∨
    t'.modified d = true ∧ t'.saveauto = true

theorem Told.same (hheld : t'.held d = t.held d) (hmodified : t'.modified = t.modified)
    (hsaveauto : t'.saveauto = t.saveauto) : Told d t t' :=
  .inl ⟨hheld, fun h => hmodified ▸ h, fun h => hsaveauto ▸ h⟩

theorem update_true {modified : Depot → Bool} (h : modified d = true) :
    update modified e true d = true := by
  by_cases hde : d = e
  · rw [hde, update_self]
  · rw [update_of_ne hde, h]

theorem Touches.told (hauto : d.autosave = true) (h : Touches t t' d) : Told d t t' := by
  refine .inr ⟨?_, ?_⟩
  · rw [h.modified, update_self]
  · rw [h.saveauto, hauto, Bool.or_true]

theorem Touches.told_same (h : Touches t t' e) (hheld : t'.held d = t.held d) : Told d t t' := by
  refine .inl ⟨hheld, ?_, ?_⟩
  · intro hmodified
    rw [h.modified]
    exact update_true hmodified
  · intro hsaveauto
    rw [h.saveauto, hsaveauto, Bool.true_or]

theorem Rewrites.told (hauto : d.autosave = true) (hfind : swParameterFind t name = some (some i))
    (hi : i < t.pnum) (htakes : (Work.set name value depot).takes d t = false)
    (h : Rewrites t i value depot t') : Told d t t' := by
  obtain ⟨p, e, hentries, -, hp, he, htouch⟩ := h.entries
  by_cases hed : e = d
  · subst hed
    exact htouch.told hauto
  · apply htouch.told_same
    rw [Table.held, hentries]
    apply filter_set_of_neg
    · intro q hq
      rw [t.entries_getElem? hi] at hq
      cases hq
      -- otherwise the set would move the description from `d` to `e`
      apply decide_eq_false
      intro hown
      cases depot with
      | none => exact hed (some.inj (he.symm.trans hown))
      | some e' =>
        cases he
        have hraised := h.raised
        simp only [notRaised, hown, some.injEq, if_neg (Ne.symm hed), bind_eq_bind,
          bind_some, decide_eq_false_iff_not] at hraised
        have hvalue : value.isSome = true := isSome_iff_ne_none.2 h.given
        simp [Work.takes, hfind, hown, hed, hvalue, h.unlocked] at htakes
        omega
    · simp [hp, hed]

theorem Inserts.told (halloc : ∀ k, alloc k = true) (hwf : WellFormed t) (hauto : d.autosave = true)
    (hnew : ∀ q ∈ t.entries, q.key ≠ name.fold) (h : Inserts alloc t name depot t') :
    Told d t t' := by
  obtain ⟨k, p, e, -, hentries, -, hp, -, htouch⟩ := h.entries halloc hwf hnew
  by_cases hed : e = d
  · subst hed
    exact htouch.told hauto
  · apply htouch.told_same
    rw [Table.held, hentries]
    exact filter_insert_of_neg k t.entries (by simp [hp, hed])

theorem told_delete (hwf : WellFormed t) (htakes : (Work.delete name).takes d t = false)
    (h : swParameterDelete t name = some (r, t')) : Told d t t' := by
  rcases delete_inv h with rfl | ⟨i, e, hfind, he, hwritable, -, hentries, hmodified, hsaveauto, -⟩
  · exact .same rfl rfl rfl
  · obtain ⟨hi, -⟩ := hwf.find_lt hfind
    refine .inl ⟨?_, ?_, fun hold => hsaveauto.trans hold⟩
    · rw [Table.held, hentries hi]
      apply filter_eraseIdx_of_neg
      intro q hq
      rw [t.entries_getElem? hi] at hq
      cases hq
      simpa [Work.takes, hfind, hwritable] using htakes
    · rw [hmodified]
      exact update_true

theorem told_deleteAll (htakes : Work.deleteAll.takes d t = false)
    (h : swParameterDeleteAll t = some t') : Told d t t' := by
  obtain ⟨e, he, hentries, hmodified, hsaveauto, -⟩ := deleteAll_inv h
  refine .inl ⟨?_, ?_, fun hold => hsaveauto.trans hold⟩
  · rw [Table.held, Table.held, hentries, List.filter_filter]
    apply List.filter_congr
    intro p hp
    by_cases hown : p.depot = some d
    · by_cases hed : e = d
      · subst hed
        have hreadonly : p.readonly = true := by
          simp only [Work.takes, he, beq_self_eq_true, Bool.true_and, List.any_eq_false,
            Table.held] at htakes
          simpa using htakes p (List.mem_filter.2 ⟨hp, decide_eq_true hown⟩)
        simp [hreadonly]
      · simp [hown, Ne.symm hed]
    · simp [hown]
  · rw [hmodified]
    exact update_true

theorem told_leaves {work : Work} (halloc : ∀ k, alloc k = true) (hwf : WellFormed t)
    (hauto : d.autosave = true) (hget : work.isGet = false) (htakes : work.takes d t = false)
    (h : work.Leaves alloc t t') : Told d t t' := by
  cases h with
  | attempts _ n => exact .same rfl rfl rfl
  | get h => cases hget
  | @set name value depot r t' n h =>
    let t₁ : Table := { t with allocs := n }
    have hwf₁ : WellFormed t₁ := (SameParas.attempts t n).wellFormed hwf
    have htold : Told d t₁ t' := by
      rcases set_inv h with rfl | ⟨i, hfind, hwrite⟩ | ⟨hfind, hinsert⟩
      · exact .same rfl rfl rfl
      · obtain ⟨hi, -⟩ := hwf₁.find_lt hfind
        exact Rewrites.told (t := t₁) hauto hfind hi htakes hwrite
      · exact Inserts.told (t := t₁) halloc hwf₁ hauto (hwf₁.find_new hfind) hinsert
    exact htold
  | delete h => exact told_delete hwf htakes h
  | deleteAll h => exact told_deleteAll htakes h
  | save =>
    unfold swParameterSave
    split <;> exact .same rfl rfl rfl

theorem saveLoop_saved : (saveLoop chosen ds s).saved d =
      if d ∈ ds ∧ s.table.modified d = true ∧ chosen d = true then some (s.table.held d)
      else s.saved d := by
  induction ds generalizing s with
  | nil => simp [saveLoop]
  | cons e ds ih =>
    rw [saveLoop, ih]
    by_cases hsave : (s.table.modified e && chosen e) = true
    · rw [if_pos hsave]
      obtain ⟨hmodified, hchosen⟩ := Bool.and_eq_true_iff.1 hsave
      by_cases hde : d = e
      · subst hde
        simp [hmodified, hchosen, gatherAll_entries, Table.held]
      · simp only [update_of_ne hde, List.mem_cons, hde, false_or]
        rfl
    · rw [if_neg hsave]
      by_cases hde : d = e
      · subst hde
        have hnot : ¬(s.table.modified d = true ∧ chosen d = true) := by simpa using hsave
        simp [hnot]
      · simp [hde]

/-- What was last handed to the depot is what it holds, or the saving thread has been told. -/
structure Tracked (t₀ : Table) (d : Depot) (s : System) : Prop where
  wellFormed : WellFormed s.table
  default : ∃ e, s.table.defdepot = some e
  registered : d ∈ s.table.depots
  told : s.handed t₀ d = s.table.held d ∨
    s.table.modified d = true ∧ (s.table.saveauto = true ∨ s.saveall = true)

theorem Tracked.work (halloc : ∀ k, alloc k = true) (hauto : d.autosave = true) {work : Work}
    (h : Tracked t₀ d s) (hget : work.isGet = false) (htakes : work.takes d s.table = false)
    (hwork : work.Leaves alloc s.table s'.table) (hsaved : s'.saved = s.saved)
    (hsaveall : s.saveall = true → s'.saveall = true) : Tracked t₀ d s' := by
  obtain ⟨hwf, hdepots, hdef⟩ := hwork.returns halloc h.wellFormed h.default
  refine ⟨hwf, by rw [hdef]; exact h.default, by rw [hdepots]; exact h.registered, ?_⟩
  have hhanded : s'.handed t₀ d = s.handed t₀ d := by rw [System.handed, hsaved, System.handed]
  rcases told_leaves halloc h.wellFormed hauto hget htakes hwork with ⟨hheld, hmodified, hsaveauto⟩
    | htold
  · rcases h.told with hsame | ⟨hchanged, hflag⟩
    · left
      rw [hhanded, hheld, hsame]
    · right
      exact ⟨hmodified hchanged, hflag.imp hsaveauto hsaveall⟩
  · right
    exact ⟨htold.1, .inl htold.2⟩

theorem saveSection_handed (hauto : d.autosave = true) (h : Tracked t₀ d s) :
    (saveSection s).handed t₀ d = s.table.held d := by
  -- a depot that was told of is saved in both loops; one that was not holds the same
  have hloop (chosen : Depot → Bool) (hchosen : chosen d = true) :
      (saveLoop chosen s.table.depots s).handed t₀ d = s.table.held d := by
    rw [System.handed, saveLoop_saved]
    split
    · rfl
    · rename_i hnot
      rcases h.told with hsame | ⟨hchanged, -⟩
      · exact hsame
      · exact absurd ⟨h.registered, hchanged, hchosen⟩ hnot
  unfold saveSection
  split
  · exact hloop _ rfl
  · rename_i hall
    split
    · exact hloop _ hauto
    · rename_i hsaveauto
      rcases h.told with hsame | ⟨-, hflag | hflag⟩
      · exact hsame
      · exact absurd hflag hsaveauto
      · exact absurd hflag hall

theorem Tracked.saver (hauto : d.autosave = true) (h : Tracked t₀ d s)
    (hproc : paramSaveProc s = some s') : Tracked t₀ d s' := by
  have hwait (signal : Signal) (saver : Saver) :
      Tracked t₀ d { s with table := { s.table with signal }, saver } :=
    ⟨SameParas.wellFormed (t := s.table) ⟨rfl, rfl, rfl, rfl⟩ h.wellFormed, h.default, h.registered,
      h.told⟩
  unfold paramSaveProc at hproc
  split at hproc
  · obtain ⟨⟨r, signal⟩, -, hproc⟩ := bind_eq_some_iff.1 hproc
    cases hproc
    exact hwait _ _
  · obtain ⟨⟨r, signal⟩, -, hproc⟩ := bind_eq_some_iff.1 hproc
    cases hproc
    exact hwait _ _
  · cases hproc
    obtain ⟨hsame, -⟩ := saveSection_same s
    refine ⟨hsame.wellFormed h.wellFormed, ?_, ?_, .inl ?_⟩
    · rw [hsame.defdepot]
      exact h.default
    · rw [hsame.depots]
      exact h.registered
    · rw [Table.held, hsame.entries]
      exact saveSection_handed hauto h

theorem Tracked.step (halloc : ∀ k, alloc k = true) (hauto : d.autosave = true) (h : Tracked t₀ d s)
    (hspares : Sparing d s a) (hstep : step alloc s a = some (event, s')) : Tracked t₀ d s' := by
  cases step_inv hstep with
  | @call thread request place t hidle henter =>
    refine h.work halloc hauto hspares.1 hspares.2 (enter_leaves henter) rfl ?_
    intro hall
    rcases saveall_inv s.table s.saveall request with hsame | ⟨t', rfl, rfl, -⟩
    · exact hsame.trans hall
    · change (swParameterSave s.table s.saveall).1 = true
      unfold swParameterSave
      split
      · rfl
      · exact hall
  | advance hproceed =>
    exact h.work halloc hauto hspares.1 hspares.2 (proceed_leaves hproceed) rfl id
  | saver hproc => exact h.saver hauto hproc

/-- As long as no step takes a parameter from the depot, the saving thread is idle only when
the depot has been given all that the table holds for it. -/
theorem run_saved {alloc : Alloc} {t : Table} {d : Depot} {history : List (Action × Event)}
    {s : System} (halloc : ∀ k, alloc k = true) (hsetup : SetUp alloc t) (hd : d ∈ t.depots)
    (hauto : d.autosave = true) (hrun : Run (step alloc) (Sparing d) (.start t) history s)
    (hwait : s.saver = .firstWait) (hsignal : s.table.signal.val = 0) : Saved t d s := by
  have hready := hsetup.ready halloc
  have hinv : Tracked t d s ∧ Heard s := by
    apply Run.invariant (fun _ s => Tracked t d s ∧ Heard s) _ _ hrun
    · exact ⟨⟨hready.wellFormed, hready.hasDefault hsetup.depots, hd, .inl rfl⟩, hsetup.heard⟩
    · intro _ s a event s' h hspares hstep
      exact ⟨h.1.step halloc hauto hspares hstep, h.2.step hstep⟩
  rcases hinv.1.told with hsame | ⟨-, hflag⟩
  · intro e
    rw [hsame]
  · have hgiven := hinv.2.woken hwait hflag.symm
    omega

def fileDepot : Depot := ⟨1, cstring [102], .file, true⟩
def eepromDepot : Depot := ⟨2, cstring [101], .e2prom, false⟩

/-- Sets of both depots and a deletion in the other one: the file gets all that it holds. -/
theorem run_saved_apart : ∃ (t : Table) (history : List (Action × Event)) (s : System),
    SetUp (fun _ => true) t ∧ fileDepot ∈ t.depots ∧
      Run (step fun _ => true) (Sparing fileDepot) (.start t) history s ∧
      s.saver = .firstWait ∧ s.table.signal.val = 0 ∧ pairsOf (s.table.held fileDepot) =
        [(some (cstring [97]), some (cstring [50])), (some (cstring [99]), some (cstring [49]))] ∧
      Saved t fileDepot s := by
  obtain ⟨t, history, s, hsetup, he, hd, hwait, hsignal, hheld⟩ := exists_setUp
    [.register fileDepot true [(cstring [99], some (cstring [49]))], .register eepromDepot false []]
    (Sparing fileDepot)
    [.call 1 (.set (cstring [97]) (some (cstring [49]))), .saver,
      .call 1 (.add (cstring [98]) (some (cstring [49])) (some (cstring [101]))), .advance 1,
      .call 1 (.set (cstring [97]) (some (cstring [50]))), .saver, .saver, .saver,
      .call 1 (.delete (cstring [98]))]
    (fun t _ s => fileDepot ∈ t.depots ∧ s.saver = .firstWait ∧ s.table.signal.val = 0 ∧
      pairsOf (s.table.held fileDepot) =
        [(some (cstring [97]), some (cstring [50])), (some (cstring [99]), some (cstring [49]))])
    (by decide +kernel)
  exact ⟨t, history, s, hsetup, hd, .of_exec he, hwait, hsignal, hheld,
    run_saved (fun _ => rfl) hsetup hd rfl (.of_exec he) hwait hsignal⟩

/-- A parameter is set and saved; then it is deleted, and the saving thread is not woken. The
file keeps it for good. -/
theorem deletion_not_saved : ∃ (t : Table) (history : List (Action × Event)) (s : System),
    SetUp (fun _ => true) t ∧ fileDepot ∈ t.depots ∧
    exec (step fun _ => true) (fun _ _ => True) (.start t)
        [.call 1 (.set (cstring [97]) (some (cstring [49]))), .saver, .saver, .saver,
         .call 1 (.delete (cstring [97]))] = some (history, s) ∧
      s.saver = .firstWait ∧ s.table.signal.val = 0 ∧ s.table.held fileDepot = [] ∧
      (s.saved fileDepot).map pairsOf = some [(some (cstring [97]), some (cstring [49]))] ∧
      ¬Saved t fileDepot s := by
  obtain ⟨t, history, s, hsetup, he, hd, hwait, hsignal, hheld, hsaved⟩ := exists_setUp
    [.register fileDepot true []] (fun _ _ => True)
    [.call 1 (.set (cstring [97]) (some (cstring [49]))), .saver, .saver, .saver,
      .call 1 (.delete (cstring [97]))]
    (fun t _ s => fileDepot ∈ t.depots ∧ s.saver = .firstWait ∧ s.table.signal.val = 0 ∧
      s.table.held fileDepot = [] ∧
      (s.saved fileDepot).map pairsOf = some [(some (cstring [97]), some (cstring [49]))])
    (by decide +kernel)
  refine ⟨t, history, s, hsetup, hd, he, hwait, hsignal, hheld, hsaved, ?_⟩
  intro h
  obtain ⟨ps, hps, hpairs⟩ := map_eq_some_iff.1 hsaved
  have hmem := (h (some (cstring [97]), some (cstring [49]))).1 (by
    rw [System.handed, hps, getD_some, hpairs]
    exact List.mem_singleton_self _)
  rw [hheld] at hmem
  cases hmem

end SwApi.Parameter
