import SwApi.HostLookup.Ownership

/-! One mutex, which one thread at a time has, as long as no thread creates a second one. -/
namespace SwApi.HostLookup
open Library

def Single (m : Mutexes) : Prop := m.mute = none ∧ m.owners = [] ∨ ∃ owner, m.mute = some 0 ∧
    m.owners = [owner]

/-- What a thread in the common part knows of the mutex: behind `LOCK()` it is its owner. -/
def Fits (m : Mutexes) (me : Thread) : Section → Prop
  | .test => True
  | .create => True
  | .aim => m.mute = some 0
  | .lock i => i = 0 ∧ m.mute = some 0
  | _ => m.mute = some 0 ∧ m.owners = [some me]

def Section.Inside : Section → Prop
  | .test => False
  | .create => False
  | .aim => False
  | .lock _ => False
  | _ => True

structure Kept (r : Nat) (side : Side) (m : Mutexes) (q : Request) (moved : Moved) : Prop where
  single : Single moved.mutexes
  me : ∀ sec, moved.request.pc side = .sec sec → Fits moved.mutexes (r, side) sec
  others : ∀ thread ≠ (r, side), ∀ sec, Fits m thread sec → Fits moved.mutexes thread sec
  other : ∀ sec, moved.request.pc side.other = .sec sec ↔ q.pc side.other = .sec sec
  mine : moved.mutexes.owners = [some (r, side)] → ∃ sec, moved.request.pc side = .sec sec ∧
    sec.Inside
  theirs : ∀ thread ≠ (r, side), moved.mutexes.owners = [some thread] → m.owners = [some thread]

theorem kept_same (hsingle : Single m) {next : Section} (hnext : Fits m (r, side) next)
    (hinside : m.owners = [some (r, side)] → next.Inside) {q₁ : Request}
    (hq₁ : q₁.pc side.other = q.pc side.other)
    (entries : List (Entry Nat)) : Kept r side m q ⟨m, q₁.goto side (.sec next), entries⟩ := by
  refine ⟨hsingle, fun sec hsec => ?_, fun _ _ _ h => h, fun sec => ?_,
    fun howner => ⟨next, ?_, hinside howner⟩, fun _ _ h => h⟩
  · simp only [goto_pc, Pc.sec.injEq] at hsec
    exact hsec ▸ hnext
  · simp [hq₁]
  · simp

theorem Single.mute_zero (h : Single m) (hmute : m.mute = some i) : i = 0 ∧
    ∃ owner, m.owners = [owner] := by
  rcases h with ⟨hnone, -⟩ | ⟨owner, hzero, howners⟩
  · simp [hnone] at hmute
  · rw [hzero] at hmute
    cases hmute
    exact ⟨rfl, owner, howners⟩

theorem Fits.of_mute (h : Fits m thread sec) (hmute : m.mute = some 0 → m'.mute = some 0)
    (howners : m.owners ≠ [some thread]) : Fits m' thread sec := by
  cases sec with
  | test | create => trivial
  | aim => exact hmute h
  | lock i => exact ⟨h.1, hmute h.2⟩
  | _ => exact absurd h.2 howners

theorem kept_create (hsingle : Single m) (hmute : m.mute = none) :
    Kept r side m q ⟨⟨some m.owners.length, m.owners ++ [none]⟩, q.goto side (.sec .aim), []⟩ := by
  have howners : m.owners = [] := by
    rcases hsingle with ⟨-, hnil⟩ | ⟨owner, hzero, -⟩
    · exact hnil
    · simp [hmute] at hzero
  rw [howners]
  refine ⟨.inr ⟨none, rfl, rfl⟩, fun sec hsec => ?_, fun thread _ sec h => ?_, fun sec => ?_,
    fun howner => ?_, fun _ _ howner => ?_⟩
  · simp only [goto_pc, Pc.sec.injEq] at hsec
    subst hsec
    rfl
  · exact h.of_mute (by simp [hmute]) (by simp [howners])
  · simp
  · cases howner
  · cases howner

theorem kept_lock (hsingle : Single m) (hmute : m.mute = some 0)
    (hfree : m.owners[0]? = some none) :
    Kept r side m q ⟨{ m with owners := m.owners.set 0 (some (r, side)) }, q.goto side (.sec .body),
    []⟩ := by
  obtain ⟨-, owner, howners⟩ := hsingle.mute_zero hmute
  have hset : m.owners.set 0 (some (r, side)) = [some (r, side)] := by rw [howners]; rfl
  rw [hset]
  refine ⟨.inr ⟨_, hmute, rfl⟩, fun sec hsec => ?_, fun thread _ sec h => ?_, fun sec => ?_,
    fun _ => ⟨.body, ?_, trivial⟩, fun thread hne howner => ?_⟩
  · simp only [goto_pc, Pc.sec.injEq] at hsec
    subst hsec
    exact ⟨hmute, rfl⟩
  · exact h.of_mute id fun hthread => by simp [hthread] at hfree
  · simp
  · simp
  · cases howner
    exact absurd rfl hne

theorem kept_unlock (howners : m.owners = [some (r, side)]) :
    Kept r side m q ⟨⟨some 0, m.owners.set 0 none⟩, q.finish side, []⟩ := by
  have hset : m.owners.set 0 none = [none] := by rw [howners]; rfl
  rw [hset]
  refine ⟨.inr ⟨_, rfl, rfl⟩, fun sec hsec => ?_, fun thread hne sec h => ?_, fun sec => ?_,
    fun howner => ?_, fun _ _ howner => ?_⟩
  · simp [finish_pc] at hsec
  · refine h.of_mute (fun _ => rfl) fun hthread => hne ?_
    simpa [howners] using hthread.symm
  · simp
  · cases howner
  · cases howner

theorem kept_inSection (hsingle : Single m) (hme : Fits m (r, side) sec)
    (hinside : m.owners = [some (r, side)] → sec.Inside) (hcreate : sec = .create → m.mute = none ∧
    ok = true) (hstep : q.inSection r side m ok sec = some moved) : Kept r side m q moved := by
  cases sec with
  | test =>
    cases hstep
    refine kept_same hsingle ?_ (fun howner => (hinside howner).elim) rfl _
    split
    · trivial
    · rename_i hmute
      obtain ⟨i, hi⟩ := Option.ne_none_iff_exists'.1 hmute
      rw [(hsingle.mute_zero hi).1] at hi
      exact hi
  | create =>
    obtain ⟨hmute, rfl⟩ := hcreate rfl
    cases hstep
    exact kept_create hsingle hmute
  | aim =>
    have hmute : m.mute = some 0 := hme
    simp only [Request.inSection, hmute] at hstep
    cases hstep
    exact kept_same hsingle (show Fits m (r, side) (.lock 0) from ⟨rfl, hmute⟩)
      (fun howner => (hinside howner).elim) rfl _
  | lock i =>
    obtain ⟨rfl, hmute⟩ := hme
    rw [Request.inSection] at hstep
    split at hstep <;> cases hstep
    exact kept_lock hsingle hmute (by assumption)
  | body =>
    cases hstep
    exact kept_same hsingle (show Fits m (r, side) .exitTest from hme) (fun _ => trivial)
      (body_pc q side _) _
  | exitTest =>
    cases hstep
    refine kept_same hsingle ?_ (fun _ => ?_) rfl _
    · split <;> exact hme
    · split <;> trivial
  | exitSet =>
    cases hstep
    exact kept_same hsingle (show Fits m (r, side) .unlock from hme) (fun _ => trivial)
      (withInfo_pc q _ _) _
  | destroy =>
    cases hstep
    exact kept_same hsingle (show Fits m (r, side) .free from hme) (fun _ => trivial) rfl _
  | free =>
    cases hstep
    exact kept_same hsingle (show Fits m (r, side) .unlock from hme) (fun _ => trivial) rfl _
  | unlock =>
    obtain ⟨hmute, howners⟩ := hme
    simp only [Request.inSection, hmute] at hstep
    cases hstep
    exact kept_unlock howners

theorem proceed_outside {es : List (Entry Nat)} (hphase : Phase es r q)
    (hout : ∀ sec, q.pc side ≠ .sec sec) {addr : Option Nat}
    (hstep : q.proceed r side m ok addr = some moved) :
    moved.mutexes = m ∧ (∀ sec, moved.request.pc side = .sec sec → sec = .test) ∧
      ∀ sec, moved.request.pc side.other = .sec sec ↔ q.pc side.other = .sec sec := by
  have hplace : q.pc side ≠ .idle → q.pc side ≠ .done → _ := hphase.cases_side
  unfold Request.proceed at hstep
  cases side <;> simp only [Request.pc, Side.other, Request.goto] at * <;> grind [Joint, Alone]

theorem kept_proceed (hsingle : Single m) (hme : ∀ sec, q.pc side = .sec sec → Fits m (r, side) sec)
    (hinside : m.owners = [some (r, side)] → ∃ sec, q.pc side = .sec sec ∧ sec.Inside)
    (hcreate : q.pc side = .sec .create → m.mute = none ∧ ok = true) {es : List (Entry Nat)}
    (hphase : Phase es r q)
    {addr : Option Nat} (hstep : q.proceed r side m ok addr = some moved) :
    Kept r side m q moved := by
  by_cases hsec : ∃ sec, q.pc side = .sec sec
  · obtain ⟨sec, hpc⟩ := hsec
    simp only [Request.proceed, hpc] at hstep
    refine kept_inSection hsingle (hme sec hpc) (fun howner => ?_)
      (fun h => hcreate (h ▸ hpc)) hstep
    obtain ⟨sec', hsec, hin⟩ := hinside howner
    rw [hpc] at hsec
    cases hsec
    exact hin
  · have hout : ∀ sec, q.pc side ≠ .sec sec := fun sec hpc => hsec ⟨sec, hpc⟩
    obtain ⟨hsame, htest, hother⟩ := proceed_outside hphase hout hstep
    refine ⟨hsame ▸ hsingle, fun sec hsec => ?_, fun _ _ _ h => hsame ▸ h, hother, fun howner => ?_,
      fun _ _ h => hsame ▸ h⟩
    · rw [htest sec hsec]
      trivial
    · obtain ⟨sec, hpc, -⟩ := hinside (hsame ▸ howner)
      exact absurd hpc (hout sec)

end SwApi.HostLookup
