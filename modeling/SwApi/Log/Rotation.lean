import SwApi.Log.Files

/-! Which calls of `log_output` write to an open file. -/
namespace SwApi.Log
open Library List Option

/-- What is asked of a call after others: it writes to one FILE, which is open, it leaves a file
open, and no FILE has been closed twice. -/
structure Kept (es call : List (Entry Nat)) (t : FileTarget) : Prop where
  written : ∃ before i, call = before ++ [.use i] ∧ (∀ j, .use j ∉ before) ∧ Held (es ++ before) i
  left : ∃ i, (t.fp1.fp = some i ∨ t.fp2.fp = some i) ∧ Held (es ++ call) i
  once : ∀ i, (es ++ call).count (.release i) ≤ 1

def LogFile.Expiring (f : LogFile) : Prop := f.state = .full ∧ 8 ≤ f.fullcount + 1
  deriving Decidable

/-- When a file is closed, the line can go to the other one: that is open or can be opened; if `fp2`
is closed, `fp1` is not full, or it is closed and opened again. -/
def Spared (t : FileTarget) (c : Output) : Prop :=
  (t.fp1.Expiring → t.fp2.state = .off → c.opens = true) ∧
    (t.fp2.Expiring → t.fp1.state = .on ∨ (t.fp1.state = .off ∨ t.fp1.Expiring) ∧ c.opens = true)
  deriving Decidable

structure FileOk (es : List (Entry Nat)) (f : LogFile) : Prop where
  off : f.state = .off → f.fp = none
  held : f.state ≠ .off → ∃ i, f.fp = some i ∧ Held es i

structure Mid (es : List (Entry Nat)) (s : Turn) : Prop where
  clean : Clean (es ++ s.entries)
  quiet : ∀ j, .use j ∉ s.entries
  fresh : ∀ i, .acquire i ∈ es ++ s.entries → i < s.opened
  full : FileOk (es ++ s.entries) s.full
  other : FileOk (es ++ s.entries) s.other
  apart : ∀ i, s.full.fp = some i → s.other.fp ≠ some i
  target : ∃ i, s.fp = some i ∧ (s.full.fp = some i ∨ s.other.fp = some i)

section
variable {s : Turn}

theorem FileOk.state_ne (h : FileOk es f) (hfp : f.fp = some i) : f.state ≠ .off := fun hoff => by
  rw [h.off hoff] at hfp
  cases hfp

theorem FileOk.held_of_fp (h : FileOk es f) (hfp : f.fp = some i) : Held es i := by
  obtain ⟨j, hj, hheld⟩ := h.held (h.state_ne hfp)
  rw [hfp] at hj
  cases hj
  exact hheld

theorem Mid.held (h : Mid es s) (hfp : s.fp = some i) : Held (es ++ s.entries) i := by
  obtain ⟨j, hj, htarget⟩ := h.target
  rw [hfp] at hj
  cases hj
  exact htarget.elim h.full.held_of_fp h.other.held_of_fp

theorem Mid.swap (h : Mid es s) : Mid es s.swap := by
  obtain ⟨clean, quiet, fresh, full, other, apart, target⟩ := h
  refine ⟨clean, quiet, fresh, other, full, fun i hi hother => apart i hother hi, ?_⟩
  obtain ⟨i, hi, htarget⟩ := target
  exact ⟨i, hi, htarget.symm⟩

theorem FileOk.append_acquire (h : FileOk es f) (j : Nat) : FileOk (es ++ [.acquire j]) f := by
  refine ⟨h.off, fun hstate => ?_⟩
  obtain ⟨i, hi, hheld⟩ := h.held hstate
  exact ⟨i, hi, hheld.append_acquire j⟩

theorem Mid.openOther (h : Mid es s) (opens : Bool) : Mid es (s.openOther opens) := by
  unfold Turn.openOther
  split
  · rename_i hoff
    cases opens with
    | false =>
      have hother : { s.other with fp := none } = s.other := by
        rw [← h.other.off hoff]
      simp only [Bool.false_eq_true, if_false, hother]
      exact h
    | true =>
      simp only [if_true]
      have hnew : .acquire s.opened ∉ es ++ s.entries :=
        fun hmem => Nat.lt_irrefl _ (h.fresh _ hmem)
      have hassoc : es ++ (s.entries ++ [.acquire s.opened]) =
        es ++ s.entries ++ [.acquire s.opened] :=
        (append_assoc _ _ _).symm
      constructor
      · rw [hassoc]
        exact h.clean.snoc hnew
      · intro j
        simpa using h.quiet j
      · intro i
        rw [hassoc]
        intro hi
        rcases mem_append.1 hi with hi | hi
        · exact Nat.lt_succ_of_lt (h.fresh i hi)
        · rw [Entry.acquire.inj (mem_singleton.1 hi)]
          exact Nat.lt_succ_self _
      · rw [hassoc]
        exact h.full.append_acquire _
      · rw [hassoc]
        refine ⟨fun hstate => ?_, fun _ => ⟨s.opened, rfl, h.clean.held_acquire hnew⟩⟩
        cases hstate
      · intro i hi hother
        cases hother
        exact hnew (h.full.held_of_fp hi).1
      · exact ⟨s.opened, rfl, .inr rfl⟩
  · exact h

theorem Mid.closeFull (h : Mid es s) (hstate : s.full.state ≠ .off)
    (hspared : 8 ≤ s.full.fullcount + 1 → s.fp ≠ s.full.fp) : Mid es s.closeFull := by
  unfold Turn.closeFull
  split
  · rename_i hexpired
    obtain ⟨j, hj, hheld⟩ := h.full.held hstate
    have hassoc : es ++ (s.entries ++ [.release j]) = es ++ s.entries ++ [.release j] :=
      (append_assoc _ _ _).symm
    simp only [hj, toList_some, map_cons, map_nil]
    constructor
    · rw [hassoc]
      exact h.clean.snoc hheld
    · intro i
      simpa using h.quiet i
    · intro i
      rw [hassoc]
      intro hi
      exact h.fresh i (by simpa using hi)
    · exact ⟨fun _ => rfl, fun hne => absurd rfl hne⟩
    · rw [hassoc]
      refine ⟨h.other.off, fun hother => ?_⟩
      obtain ⟨i, hi, hheldOther⟩ := h.other.held hother
      refine ⟨i, hi, held_append_release.2 ⟨hheldOther, fun heq => ?_⟩⟩
      subst heq
      exact h.apart i hj hi
    · intro i hi
      cases hi
    · obtain ⟨i, hi, htarget⟩ := h.target
      refine ⟨i, hi, .inr (htarget.resolve_left fun hfull => ?_)⟩
      exact hspared hexpired (hi.trans hfull.symm)
  · obtain ⟨clean, quiet, fresh, full, other, apart, target⟩ := h
    exact ⟨clean, quiet, fresh, ⟨full.off, full.held⟩, other, apart, target⟩

theorem openOther_full : (s.openOther opens).full = s.full := by
  unfold Turn.openOther
  split
  · split <;> rfl
  · rfl

theorem openOther_of_open (h : s.other.state ≠ .off) : s.openOther opens = s := if_neg h

theorem openOther_fp (h : s.other.state = .off) :
    (s.openOther opens).fp = if opens then some s.opened else s.fp := by
  cases opens with
  | false | true => simp [Turn.openOther, h]

theorem openOther_expiring (opens : Bool) (s : Turn) : (s.openOther opens).other.Expiring ↔
    s.other.Expiring := by
  by_cases h : s.other.state = .off
  · cases opens with
    | false | true => simp [Turn.openOther, h, LogFile.Expiring]
  · rw [openOther_of_open h]

theorem manage_expiring {opens : Bool} {s : Turn} : (s.manage opens).other.Expiring ↔
    s.other.Expiring := by
  unfold Turn.manage
  split
  · rw [← openOther_expiring opens s]
    unfold Turn.closeFull
    split <;> rfl
  · rfl

theorem manage_off (h : s.other.state = .off) : (s.manage false).other.state = .off := by
  have hopen : (s.openOther false).other.state = .off := by simp [Turn.openOther, h]
  unfold Turn.manage
  split
  · unfold Turn.closeFull
    split <;> exact hopen
  · exact h

def Turn.Spares (opens : Bool) (s : Turn) : Prop :=
  s.full.Expiring → (s.openOther opens).fp ≠ s.full.fp

theorem Mid.manage (h : Mid es s) (hspares : s.Spares opens) : Mid es (s.manage opens) := by
  unfold Turn.manage
  split
  · rename_i hfull
    have hmid := h.openOther opens
    refine hmid.closeFull ?_ ?_
    · rw [openOther_full, hfull]
      decide
    · rw [openOther_full]
      exact fun hexpired => hspares ⟨hfull, hexpired⟩
  · exact h

def Turn.Lost (s : Turn) : Prop := ∃ i, s.fp = some i ∧ .release i ∈ s.entries

theorem Mid.lost (h : Mid es s) (hspares : ¬s.Spares opens) : (s.manage opens).Lost := by
  rw [Turn.Spares, Classical.not_imp, ne_eq, not_not] at hspares
  obtain ⟨⟨hfull, hexpired⟩, hfp⟩ := hspares
  obtain ⟨j, hj, -⟩ := h.full.held (by rw [hfull]; decide)
  rw [Turn.manage, if_pos hfull, Turn.closeFull, openOther_full, if_pos hexpired]
  exact ⟨j, hfp.trans hj, by simp [hj]⟩

end

structure Sound (es : List (Entry Nat)) (t : FileTarget) : Prop where
  clean : Clean es
  fresh : ∀ i, .acquire i ∈ es → i < t.opened
  fp1 : FileOk es t.fp1
  fp2 : FileOk es t.fp2
  apart : ∀ i, t.fp1.fp = some i → t.fp2.fp ≠ some i
  one : t.fp1.state ≠ .off ∨ t.fp2.state ≠ .off

section
variable {t : FileTarget}

theorem mark_fp : (mark maxsize f).fp = f.fp := by
  unfold mark
  split <;> rfl

theorem mark_off : (mark maxsize f).state = .off ↔ f.state = .off := by
  unfold mark
  split
  · rename_i h
    simp [h.1]
  · rfl

theorem mark_expiring : (mark maxsize f).Expiring ↔ f.Expiring := by
  unfold mark LogFile.Expiring
  split
  · rename_i h
    simp [h.1]
  · rfl

theorem FileOk.mark (h : FileOk es f) (maxsize : Nat) : FileOk es (mark maxsize f) := by
  constructor
  · rw [mark_off, mark_fp]
    exact h.off
  · rw [ne_eq, mark_off, mark_fp]
    exact h.held

theorem chosen_eq (hone : fp1.state ≠ .off ∨ fp2.state ≠ .off) :
    chosen fp1 fp2 = fp1.fp ∧ fp1.state ≠ .off ∨ chosen fp1 fp2 = fp2.fp ∧ fp2.state ≠ .off := by
  unfold chosen
  cases h1 : fp1.state with
  | off =>
    cases h2 : fp2.state with
    | off => simp [h1, h2] at hone
    | on | full => simp
  | on | full =>
    cases h2 : fp2.state with
    | off => simp
    | on => simp
    | full => simp

theorem Sound.start (h : Sound es t) : Mid es t.start := by
  refine ⟨?_, ?_, ?_, ?_, ?_, ?_, ?_⟩
  · rw [FileTarget.start, append_nil]
    exact h.clean
  · exact fun j => not_mem_nil
  · rw [FileTarget.start, append_nil]
    exact h.fresh
  · rw [FileTarget.start, append_nil]
    exact h.fp1.mark _
  · rw [FileTarget.start, append_nil]
    exact h.fp2.mark _
  · intro i
    simp only [FileTarget.start, mark_fp]
    exact h.apart i
  · simp only [FileTarget.start, mark_fp]
    rcases chosen_eq h.one with ⟨hchosen, hstate⟩ | ⟨hchosen, hstate⟩
    · obtain ⟨i, hi, -⟩ := h.fp1.held hstate
      exact ⟨i, hchosen.trans hi, .inl hi⟩
    · obtain ⟨i, hi, -⟩ := h.fp2.held hstate
      exact ⟨i, hchosen.trans hi, .inr hi⟩

theorem Sound.new_ne (h : Sound es t) (hf : FileOk es f) : some t.opened ≠ f.fp := fun heq =>
  Nat.lt_irrefl _ (h.fresh _ (hf.held_of_fp heq.symm).1)

theorem Sound.fp_ne (h : Sound es t) (hstate : t.fp2.state ≠ .off) : t.fp2.fp ≠ t.fp1.fp :=
  fun heq => by
  obtain ⟨i, hi, -⟩ := h.fp2.held hstate
  exact h.apart i (heq ▸ hi) hi

theorem Sound.spares_first (h : Sound es t) (opens : Bool) :
    t.start.Spares opens ↔ (t.fp1.Expiring → t.fp2.state = .off → opens = true) := by
  have hexpiring : t.start.full.Expiring ↔ t.fp1.Expiring := mark_expiring
  have hfull : t.start.full.fp = t.fp1.fp := mark_fp
  have hoff : t.start.other.state = .off ↔ t.fp2.state = .off := mark_off
  rw [Turn.Spares, hexpiring, hfull]
  refine imp_congr_right fun hfp1 => ?_
  by_cases h2 : t.fp2.state = .off
  · have hchosen : t.start.fp = t.fp1.fp := by simp [FileTarget.start, chosen, h2, hfp1.1]
    have hopened : t.start.opened = t.opened := rfl
    rw [openOther_fp (hoff.2 h2), hchosen, hopened]
    cases opens with
    | false => simp [h2]
    | true => simpa [h2] using h.new_ne h.fp1
  · have hchosen : t.start.fp = t.fp2.fp := by
      cases hstate : t.fp2.state with
      | off => exact absurd hstate h2
      | on => simp [FileTarget.start, chosen, hstate]
      | full => simp [FileTarget.start, chosen, hstate, hfp1.1]
    rw [openOther_of_open (mt hoff.1 h2), hchosen]
    exact ⟨fun _ hnot => absurd hnot h2, fun _ => h.fp_ne h2⟩

/-- When `fp2` is about to be closed: `fp1` has been closed before or in the same call, and nothing
was opened. -/
theorem manage_of_expiring (h2 : t.fp2.Expiring) :
    ((t.start.manage opens).full.state = .off ↔ t.fp1.state = .off ∨ t.fp1.Expiring) ∧
      (t.start.manage opens).other.fp = t.fp2.fp ∧
      (t.start.manage opens).fp = (if t.fp1.state = .on then t.fp1.fp else t.fp2.fp) ∧
      (t.start.manage opens).opened = t.opened := by
  have hopen : t.start.other.state ≠ .off := fun hoff => by
    have hstate := mark_off.1 hoff
    rw [h2.1] at hstate
    cases hstate
  have hchosen : t.start.fp = if t.fp1.state = .on then t.fp1.fp else t.fp2.fp := by
    simp [FileTarget.start, chosen, h2.1]
  have hother : t.start.other.fp = t.fp2.fp := mark_fp
  have hoff : t.start.full.state = .off ↔ t.fp1.state = .off := mark_off
  have hexpiring : t.start.full.Expiring ↔ t.fp1.Expiring := mark_expiring
  rw [Turn.manage, openOther_of_open hopen, ← hexpiring, ← hoff]
  by_cases hfull : t.start.full.state = .full
  · rw [if_pos hfull, Turn.closeFull]
    by_cases hexpired : 8 ≤ t.start.full.fullcount + 1
    · rw [if_pos hexpired]
      exact ⟨⟨fun _ => .inr ⟨hfull, hexpired⟩, fun _ => rfl⟩, hother, hchosen, rfl⟩
    · rw [if_neg hexpired]
      refine ⟨⟨.inl, fun h => h.resolve_right fun hexp => hexpired hexp.2⟩, hother, hchosen, rfl⟩
  · rw [if_neg hfull]
    exact ⟨⟨.inl, fun h => h.resolve_right fun hexp => hfull hexp.1⟩, hother, hchosen, rfl⟩

theorem Sound.spares_second (h : Sound es t) (opens : Bool) :
    (t.start.manage opens).swap.Spares opens ↔
      (t.fp2.Expiring → t.fp1.state = .on ∨ (t.fp1.state = .off ∨ t.fp1.Expiring) ∧
      opens = true) := by
  have hexpiring : (t.start.manage opens).swap.full.Expiring ↔ t.fp2.Expiring :=
    manage_expiring.trans mark_expiring
  rw [Turn.Spares, hexpiring]
  refine imp_congr_right fun h2 => ?_
  obtain ⟨hoff, hother, hfp, hopened⟩ := manage_of_expiring h2
  have hfull : (t.start.manage opens).swap.full.fp = t.fp2.fp := hother
  have hfp2 : t.fp2.state ≠ .off := by
    rw [h2.1]
    decide
  rw [hfull]
  by_cases hclosed : t.fp1.state = .off ∨ t.fp1.Expiring
  · have hnot : t.fp1.state ≠ .on := fun hon => by
      rcases hclosed with hclosed | hclosed
      · rw [hon] at hclosed
        cases hclosed
      · rw [LogFile.Expiring, hon] at hclosed
        cases hclosed.1
    have hswap : (t.start.manage opens).swap.fp = t.fp2.fp := hfp.trans (if_neg hnot)
    rw [openOther_fp (hoff.2 hclosed), hswap, show (t.start.manage opens).swap.opened =
      t.opened from hopened]
    cases opens with
    | false => simp [hnot]
    | true => simpa [hclosed] using h.new_ne h.fp2
  · rw [openOther_of_open (mt hoff.1 hclosed), show (t.start.manage opens).swap.fp = _ from hfp]
    by_cases hon : t.fp1.state = .on
    · simpa [hon] using (h.fp_ne hfp2).symm
    · simp [hon, hclosed]

theorem Sound.turn (h : Sound es t) (c : Output) :
    (Spared t c → Mid es (t.turn c.opens)) ∧ (¬Spared t c → (t.turn c.opens).Lost) := by
  rw [Spared, ← h.spares_first, ← h.spares_second]
  constructor
  · rintro ⟨hfirst, hsecond⟩
    exact (((h.start.manage hfirst).swap).manage hsecond).swap
  · intro hnot
    by_cases hfirst : t.start.Spares c.opens
    · exact (h.start.manage hfirst).swap.lost fun hsecond => hnot ⟨hfirst, hsecond⟩
    · have hlost := h.start.lost hfirst
      rw [h.spares_first, Classical.not_imp, Classical.not_imp, Bool.not_eq_true] at hfirst
      obtain ⟨-, h2, hopens⟩ := hfirst
      rw [hopens] at hlost
      -- `fp2` is off and could not be opened: nothing more happens in this call.
      have hoff : (t.start.manage false).swap.full.state = .off := manage_off (mark_off.2 h2)
      have hidle : (t.start.manage false).swap.manage false = (t.start.manage false).swap :=
        if_neg (by rw [hoff]; decide)
      rw [FileTarget.turn, hopens, hidle]
      exact hlost

theorem grow_if (p : Prop) [Decidable p] (f : LogFile) (swSize size : Int) :
    (if p then f.grow swSize size else f).fp = f.fp ∧
    (if p then f.grow swSize size else f).state = f.state := by
  split <;> exact ⟨rfl, rfl⟩

theorem FileOk.append_use (h : FileOk es f) (hf : f'.fp = f.fp ∧ f'.state = f.state) (i : Nat) :
    FileOk (es ++ [.use i]) f' := by
  refine ⟨fun hoff => hf.1.trans (h.off (hf.2 ▸ hoff)), fun hstate => ?_⟩
  obtain ⟨j, hj, hheld⟩ := h.held (hf.2 ▸ hstate)
  exact ⟨j, hf.1.trans hj, held_append_use.2 hheld⟩

theorem Mid.logOutput {c : Output} (h : Mid es (t.turn c.opens)) :
    Kept es (t.logOutput c.swSize c.size c.opens).1 (t.logOutput c.swSize c.size c.opens).2 ∧
      Sound (es ++ (t.logOutput c.swSize c.size c.opens).1)
      (t.logOutput c.swSize c.size c.opens).2 := by
  obtain ⟨i, hi, htarget⟩ := h.target
  have hheld := h.held hi
  have hclean : Clean (es ++ (t.turn c.opens).entries ++ [.use i]) := h.clean.snoc hheld
  simp only [FileTarget.logOutput, hi]
  have hfp1 := grow_if ((t.turn c.opens).full.fp = some i) (t.turn c.opens).full c.swSize c.size
  have hfp2 := grow_if ((t.turn c.opens).full.fp ≠ some i ∧ (t.turn c.opens).other.fp = some i)
    (t.turn c.opens).other c.swSize c.size
  constructor
  · refine ⟨⟨_, i, rfl, h.quiet, hheld⟩, ⟨i, ?_, ?_⟩, ?_⟩
    · rw [hfp1.1, hfp2.1]
      exact htarget
    · rw [← append_assoc]
      exact held_append_use.2 hheld
    · rw [← append_assoc]
      exact hclean.count_release
  · rw [← append_assoc]
    refine ⟨hclean, fun j hj => ?_, h.full.append_use hfp1 i, h.other.append_use hfp2 i,
      fun j => ?_, ?_⟩
    · exact h.fresh j (by simpa using hj)
    · rw [hfp1.1, hfp2.1]
      exact h.apart j
    · rw [hfp1.2, hfp2.2]
      exact htarget.imp h.full.state_ne h.other.state_ne

theorem Sound.kept_iff (h : Sound es t) (c : Output) :
    Kept es (t.logOutput c.swSize c.size c.opens).1 (t.logOutput c.swSize c.size c.opens).2 ↔
    Spared t c := by
  constructor
  · intro hkept
    by_contra hnot
    obtain ⟨i, hi, hclosed⟩ := (h.turn c).2 hnot
    obtain ⟨before, j, hcall, -, hheld⟩ := hkept.written
    simp only [FileTarget.logOutput, hi] at hcall
    obtain ⟨rfl, hj⟩ := append_inj' hcall rfl
    cases hj
    exact hheld.2 (mem_append_right _ hclosed)
  · intro hspared
    exact (Mid.logOutput ((h.turn c).1 hspared)).1

end

def entriesOf (history : List (Output × List (Entry Nat))) : List (Entry Nat) :=
  .acquire 0 :: history.flatMap Prod.snd

theorem sound_added : Sound (entriesOf []) (swLogAddTarget maxsize).2 := by
  have hheld : Held (entriesOf []) 0 := ⟨mem_cons_self, by simp [entriesOf]⟩
  refine ⟨Clean.nil.snoc not_mem_nil, fun i hi => ?_, ⟨fun hoff => ?_, fun _ => ⟨0, rfl, hheld⟩⟩,
    ⟨fun _ => rfl, fun hne => absurd rfl hne⟩, fun i _ hnone => ?_, .inl ?_⟩
  · rw [Entry.acquire.inj (mem_singleton.1 hi)]
    exact Nat.zero_lt_one
  · cases hoff
  · cases hnone
  · intro hoff
    cases hoff

/-- After every sequence of calls that were spared, the next call is as it should be exactly when it
is spared, too. -/
theorem kept_along {maxsize : Option Nat} {history : List (Output × List (Entry Nat))}
    {t : FileTarget}
    (h : Run FileTarget.step Spared (swLogAddTarget maxsize).2 history t) (c : Output)
    (call : List (Entry Nat)) (t' : FileTarget)
    (hstep : t.step c = some (call, t')) : Kept (entriesOf history) call t' ↔ Spared t c := by
  have hsound : Sound (entriesOf history) t := by
    refine h.invariant (fun history t => Sound (entriesOf history) t) sound_added ?_
    intro history t c call t' ht hc hstep
    have hnext := (Mid.logOutput ((ht.turn c).1 hc)).2
    rw [some.inj hstep] at hnext
    have hentries : entriesOf (history ++ [(c, call)]) =
      entriesOf history ++ call := by simp [entriesOf]
    rw [hentries]
    exact hnext
  have hkept := hsound.kept_iff c
  rw [some.inj hstep] at hkept
  exact hkept

def line (opens : Bool) : Output := ⟨24, 1000, opens⟩

/-- The file gets full with the line 121; `fopen` fails for seven lines and succeeds for the next
one. -/
theorem kept_along_eight : ∃ history t call t',
    Run FileTarget.step Spared (swLogAddTarget (some 0)).2 history t ∧
    t.step (line true) = some (call, t') ∧
      call = [.acquire 1, .release 0, .use 1] ∧ Kept (entriesOf history) call t' := by
  obtain ⟨history, t, he, hcall, hspared⟩ :=
    exists_of_exec FileTarget.step Spared (swLogAddTarget (some 0)).2
    (replicate 127 (line false)) (fun _ t =>
      (t.logOutput 24 1000 true).1 = [.acquire 1, .release 0, .use 1] ∧ Spared t (line true))
        (by decide +kernel)
  have h := Run.of_exec he
  exact ⟨history, t, _, _, h, rfl, hcall, (kept_along h (line true) _ _ rfl).2 hspared⟩

/-- When `fopen` fails for the eighth time, the line is written to the file that was just closed. -/
theorem closed_file_is_written : ∃ history t call t',
    Run FileTarget.step (fun _ _ => True) (swLogAddTarget (some 0)).2 history t ∧
      t.step (line false) = some (call, t') ∧ ¬Kept (entriesOf history) call t' := by
  obtain ⟨history, t, he, hcall⟩ := exists_of_exec FileTarget.step (fun _ _ => True)
    (swLogAddTarget (some 0)).2
    (replicate 127 (line false)) (fun _ t => (t.logOutput 24 1000 false).1 = [.release 0, .use 0])
    (by decide +kernel)
  refine ⟨history, t, _, _, Run.of_exec he, rfl, fun hkept => ?_⟩
  obtain ⟨before, i, hwritten, -, hheld⟩ := hkept.written
  have heq : [.release 0] ++ [.use 0] = before ++ [Entry.use i] := hcall.symm.trans hwritten
  obtain ⟨rfl, hi⟩ := append_inj' heq rfl
  cases hi
  exact hheld.2 (mem_append_right _ mem_cons_self)

end SwApi.Log
