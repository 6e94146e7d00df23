import SwApi.HostLookup.Model

/-! The record of a call is freed once, by whoever needs it last. -/
namespace SwApi.HostLookup
open Library List

section
variable (q : Request) (side : Side) (pc : Pc)

@[simp] theorem goto_pc : (q.goto side pc).pc side = pc := by cases side <;> rfl

@[simp] theorem goto_pc_other : (q.goto side pc).pc side.other =
    q.pc side.other := by cases side <;> rfl

@[simp] theorem goto_info : (q.goto side pc).info = q.info := by cases side <;> rfl

@[simp] theorem finish_pc : (q.finish side).pc side = .done := by cases side <;> rfl

@[simp] theorem finish_pc_other : (q.finish side).pc side.other =
    q.pc side.other := by cases side <;> rfl

@[simp] theorem finish_info : (q.finish side).info = q.info := by cases side <;> rfl

@[simp] theorem body_pc (s : Side) : (q.body side).pc s =
    q.pc s := by cases side <;> cases s <;> rfl

@[simp] theorem body_info : (q.body side).info = q.info := by cases side <;> rfl

@[simp] theorem withInfo_pc (info : Info) : { q with info := info }.pc side =
    q.pc side := by cases side <;> rfl

end

def Pc.stage : Pc → Stage
  | .sec .exitSet => .leaving
  | .sec .destroy => .freeing
  | .sec .free => .freeing
  | .sec .unlock => .gone
  | .done => .gone
  | _ => .busy

def Joint : Side → Pc → Prop
  | .caller, .resume => True
  | .caller, .wait => True
  | .worker, .resolve => True
  | .worker, .store _ => True
  | _, .sec _ => True
  | _, .done => True
  | _, _ => False

def Alone (es : List (Entry Nat)) (r : Nat) (info : Info) : Pc → Prop
  | .malloc => .acquire r ∉ es
  | .fill n => Held es r ∧ (n = 0 ∨ info = ⟨false, 0⟩)
  | .open => Held es r ∧ info = ⟨false, 0⟩
  | .free => Held es r
  | .done => .acquire r ∈ es → .release r ∈ es
  | _ => False

inductive Phase (es : List (Entry Nat)) (r : Nat) (q : Request) : Prop where
  | alone : q.worker = .idle → Alone es r q.info q.caller → Phase es r q
  | shared : Joint .caller q.caller → Joint .worker q.worker →
      Shared es r q.info.isExit q.caller.stage q.worker.stage → Phase es r q

theorem joint_sec (side : Side) (sec : Section) : Joint side (.sec sec) := by cases side <;> trivial

theorem fill_info {info : Info} (h : n = 0 ∨ info = ⟨false, 0⟩) : info.fill n = ⟨false, 0⟩ := by
  rcases h with rfl | rfl
  · rfl
  · unfold Info.fill
    split <;> rfl

section
variable {q : Request} {addr : Option Nat}

theorem Phase.of_side (side : Side) (hme : Joint side (q.pc side))
    (hother : Joint side.other (q.pc side.other))
    (h : Shared es r q.info.isExit (q.pc side).stage (q.pc side.other).stage) : Phase es r q := by
  cases side with
  | caller => exact .shared hme hother h
  | worker => exact .shared hother hme h.symm

theorem Phase.cases_side (h : Phase es r q) (hidle : q.pc side ≠ .idle)
    (hdone : q.pc side ≠ .done) : side = .caller ∧ q.worker = .idle ∧ Alone es r q.info q.caller ∨
      Joint side (q.pc side) ∧ Joint side.other (q.pc side.other) ∧
        Shared es r q.info.isExit (q.pc side).stage (q.pc side.other).stage := by
  cases h with
  | alone hw hc =>
    cases side with
    | caller => exact .inl ⟨rfl, hw, hc⟩
    | worker => exact absurd hw hidle
  | shared hc hw hshared =>
    cases side with
    | caller => exact .inr ⟨hc, hw, hshared⟩
    | worker => exact .inr ⟨hw, hc, hshared.symm⟩

theorem Phase.of_sec (h : Phase es r q) (hpc : q.pc side = .sec sec) :
    Joint side.other (q.pc side.other) ∧ Shared es r q.info.isExit (Pc.sec sec).stage
    (q.pc side.other).stage := by
  rcases h.cases_side (by rw [hpc]; exact nofun) (by rw [hpc]; exact nofun) with ⟨rfl, -, hc⟩
    | ⟨-, hother, hshared⟩
  · rw [show q.caller = .sec sec from hpc] at hc
    exact hc.elim
  · exact ⟨hother, hpc ▸ hshared⟩

theorem clean_use (hclean : Clean es) (h : Shared es r flag a b) (ha : a ≠ .gone) :
    Clean (es ++ [.use r]) ∧ Shared (es ++ [.use r]) r flag a b :=
  ⟨hclean.snoc (h.held ha), h.append fun hheld => held_append_use.2 hheld⟩

theorem phase_goto {next : Pc} (hnext : Joint side next)
    (hother : Joint side.other (q.pc side.other))
    (hshared : Shared es r q.info.isExit next.stage (q.pc side.other).stage) :
    Phase es r (q.goto side next) := by
  apply Phase.of_side side
  · rwa [goto_pc]
  · rwa [goto_pc_other]
  · rwa [goto_pc, goto_pc_other, goto_info]

theorem goto_phase (hclean : Clean es) {pc next : Pc} (hother : Joint side.other (q.pc side.other))
    (hshared : Shared es r q.info.isExit pc.stage (q.pc side.other).stage)
    (hgone : pc.stage ≠ .gone) (hnext : Joint side next)
    (hstage : next.stage = pc.stage) {q₁ : Request} (hq₁ : q₁.pc side.other = q.pc side.other)
    (hflag : q₁.info.isExit = q.info.isExit) (hes' : es' = [] ∨ es' = [.use r]) :
    Clean (es ++ es') ∧ Phase (es ++ es') r (q₁.goto side next) := by
  have hafter : Clean (es ++ es') ∧ Shared (es ++ es') r q.info.isExit pc.stage
    (q.pc side.other).stage := by
    rcases hes' with rfl | rfl
    · rw [append_nil]
      exact ⟨hclean, hshared⟩
    · exact clean_use hclean hshared hgone
  refine ⟨hafter.1, phase_goto hnext (by rwa [hq₁]) ?_⟩
  rw [hq₁, hflag, hstage]
  exact hafter.2

theorem Phase.inSection (h : Phase es r q) (hclean : Clean es) {sec : Section}
    (hpc : q.pc side = .sec sec)
    (halone : sec = .exitSet → (q.pc side.other).stage ≠ .leaving)
    (hstep : q.inSection r side m ok sec = some moved) :
    Clean (es ++ moved.entries) ∧ Phase (es ++ moved.entries) r moved.request := by
  obtain ⟨hjoint, hshared⟩ := h.of_sec hpc
  -- A step of the mutex leaves the stage as it is.
  have hquiet (next : Section) (hbusy : (Pc.sec sec).stage = .busy)
    (hnext : (Pc.sec next).stage = .busy) :
      Clean (es ++ []) ∧ Phase (es ++ []) r (q.goto side (.sec next)) :=
    goto_phase hclean hjoint hshared (by rw [hbusy]; exact nofun) (joint_sec side next)
      (hnext.trans hbusy.symm) rfl rfl (.inl rfl)
  cases sec with
  | test =>
    cases hstep
    refine hquiet _ rfl ?_
    split <;> rfl
  | create =>
    cases hstep
    exact hquiet _ rfl rfl
  | aim =>
    rw [Request.inSection] at hstep
    split at hstep <;> cases hstep <;> exact hquiet _ rfl rfl
  | lock i =>
    rw [Request.inSection] at hstep
    split at hstep <;> cases hstep
    exact hquiet _ rfl rfl
  | body =>
    cases hstep
    exact goto_phase hclean hjoint hshared Stage.noConfusion (joint_sec side .exitTest) rfl
      (body_pc q side _) (by rw [body_info]) (.inr rfl)
  | exitTest =>
    cases hstep
    obtain ⟨hclean', hshared'⟩ := clean_use hclean hshared nofun
    refine ⟨hclean', phase_goto (joint_sec side _) hjoint ?_⟩
    have hread := hshared'.read
    cases hflag : q.info.isExit <;> rw [hflag] at hread <;> exact hread
  | exitSet =>
    cases hstep
    obtain ⟨hclean', hshared'⟩ := clean_use hclean hshared nofun
    refine ⟨hclean', phase_goto (joint_sec side _) (by rwa [withInfo_pc]) ?_⟩
    rw [withInfo_pc]
    exact hshared'.set (halone rfl)
  | destroy =>
    cases hstep
    exact goto_phase hclean hjoint hshared Stage.noConfusion (joint_sec side .free) rfl rfl rfl
      (.inr rfl)
  | free =>
    cases hstep
    exact ⟨hclean.snoc (hshared.held nofun), phase_goto (joint_sec side _) hjoint hshared.release⟩
  | unlock =>
    have hfinish : Clean (es ++ []) ∧ Phase (es ++ []) r (q.finish side) := by
      rw [append_nil]
      refine ⟨hclean, Phase.of_side side ?_ ?_ ?_⟩
      · rw [finish_pc]
        cases side <;> trivial
      · rwa [finish_pc_other]
      · rwa [finish_pc, finish_pc_other, finish_info]
    rw [Request.inSection] at hstep
    split at hstep <;> cases hstep <;> exact hfinish

theorem alone_step (hw : q.worker = .idle) (hc : Alone es r q.info q.caller) (hclean : Clean es)
    (hstep : q.proceed r .caller m ok addr = some moved) :
    Clean (es ++ moved.entries) ∧ Phase (es ++ moved.entries) r moved.request := by
  simp only [Request.proceed, Request.pc] at hstep
  generalize q.caller = pc at hstep hc
  cases pc with
  | malloc =>
    cases ok with
    | true =>
      cases hstep
      exact ⟨hclean.snoc hc, .alone hw ⟨hclean.held_acquire hc, .inl rfl⟩⟩
    | false =>
      cases hstep
      rw [append_nil]
      exact ⟨hclean, .alone hw fun hacquire => absurd hacquire hc⟩
  | fill n =>
    cases hstep
    have hheld : Held (es ++ [.use r]) r := held_append_use.2 hc.1
    refine ⟨hclean.snoc hc.1, .alone hw ?_⟩
    simp only [Request.goto, fill_info hc.2]
    split
    · exact ⟨hheld, rfl⟩
    · exact ⟨hheld, .inr rfl⟩
  | «open» =>
    cases ok with
    | true =>
      cases hstep
      rw [append_nil]
      refine ⟨hclean, .shared trivial trivial ?_⟩
      simp only [hc.2]
      exact .both hc.1 (.inl rfl) (.inl rfl)
    | false =>
      cases hstep
      rw [append_nil]
      exact ⟨hclean, .alone hw hc.1⟩
  | free =>
    cases hstep
    exact ⟨hclean.snoc hc, .alone hw fun _ => by simp⟩
  | done =>
    cases hstep
  | _ =>
    exact hc.elim

theorem Phase.proceed (h : Phase es r q) (hclean : Clean es)
    (halone : q.pc side = .sec .exitSet → (q.pc side.other).stage ≠ .leaving)
    (hstep : q.proceed r side m ok addr = some moved) :
    Clean (es ++ moved.entries) ∧ Phase (es ++ moved.entries) r moved.request := by
  have hgoes : q.pc side ≠ .idle ∧ q.pc side ≠ .done := by
    constructor <;> intro hpc <;> simp [Request.proceed, hpc] at hstep
  rcases h.cases_side hgoes.1 hgoes.2 with ⟨rfl, hw, hc⟩ | ⟨hme, hother, hshared⟩
  · exact alone_step hw hc hclean hstep
  simp only [Request.proceed] at hstep
  generalize hpc : q.pc side = pc at hme hshared hstep
  cases pc with
  | sec sec =>
    exact h.inSection hclean hpc (fun hset => halone (hset ▸ hpc)) hstep
  | resume =>
    cases hstep
    refine goto_phase hclean hother hshared nofun ?_ (by rfl) rfl rfl (.inl rfl)
    cases side <;> trivial
  | wait =>
    cases hstep
    exact goto_phase hclean hother hshared Stage.noConfusion (joint_sec side .test) rfl rfl rfl
      (.inr rfl)
  | resolve =>
    cases hstep
    refine goto_phase hclean hother hshared nofun ?_ (by rfl) ?_ (by rfl) (.inr rfl)
    · cases side <;> trivial
    · cases side <;> rfl
  | store found =>
    cases found with
    | none =>
      cases hstep
      exact goto_phase hclean hother hshared Stage.noConfusion (joint_sec side .test) rfl rfl rfl
        (.inl rfl)
    | some a =>
      cases hstep
      exact goto_phase hclean hother hshared Stage.noConfusion (joint_sec side .test) rfl
        (withInfo_pc q _ _) (by rfl) (.inr rfl)
  | _ =>
    cases side <;> first | exact hme.elim | exact absurd hpc hgoes.2

theorem Phase.frame (h : Phase es r q) (hes' : ∀ e ∈ es', e.thing ≠ r) : Phase (es ++ es') r q := by
  have hheld : Held (es ++ es') r ↔ Held es r := held_append_other hes'
  have hacquire : .acquire r ∈ es ++ es' ↔ .acquire r ∈ es := mem_append_other hes' rfl
  have hrelease : .release r ∈ es ++ es' ↔ .release r ∈ es := mem_append_other hes' rfl
  cases h with
  | alone hw hc =>
    refine .alone hw ?_
    cases hcaller : q.caller <;> rw [hcaller] at hc <;> simp only [Alone, hheld, hacquire,
      hrelease] at hc ⊢ <;> exact hc
  | shared hc hw hshared => exact .shared hc hw (hshared.append hheld.2)

end

theorem proceed_entries {q : Request} {r : Nat} {side : Side} {m : Mutexes} {ok : Bool}
    {addr : Option Nat} {moved : Moved}
    (hstep : q.proceed r side m ok addr = some moved) : ∀ e ∈ moved.entries, e.thing = r := by
  unfold Request.proceed Request.inSection at hstep
  repeat' split at hstep
  all_goals cases hstep <;> simp [Entry.thing]

end SwApi.HostLookup
