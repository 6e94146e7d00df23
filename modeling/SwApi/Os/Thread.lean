import SwApi.Library.Transition

/-! The threads of `swthrd.c`: the loop of `sema_thread_handler` and the calls of other threads that
pause, resume and close it. Each access of a flag and each operation of the semaphore is a step.
What a close does behind its `sem_post` (the wait for the loop, the cancellation) is left out. -/
namespace SwApi.Os
open Library

inductive Point where
  | top
  | testPause
  | wait
  | testHandler
  | testExit
  | invoke
  | running
  | done
deriving DecidableEq

/-- `sthrdinfo_t`, with the calls of `sw_thrd_resume` and `sw_thrd_close` that have set their flag
and not posted yet. -/
structure Thrd where
  isPause : Bool
  isExit : Bool
  handler : Bool
  sem : Nat
  posts : Nat
  point : Point
deriving DecidableEq

def swThrdOpen : Thrd := ⟨true, false, true, 0, 0, .top⟩

inductive Act where
  /-- The next step of the loop, outside of the handler. -/
  | loop
  /-- The handler returns. -/
  | returned (again : Bool)
  /-- `info->is_pause = 1`. -/
  | pause
  /-- `info->is_pause = 0` in `sw_thrd_resume`. -/
  | resume
  /-- `info->is_exit = 1` in `sw_thrd_close`. -/
  | close
  /-- The `sem_post` behind one of the last two. -/
  | post
deriving DecidableEq

def Thrd.goto (t : Thrd) : Point → Thrd
  | .done => { t with handler := false, point := .done }
  | point => { t with point }

/-- A step, and whether it invokes the handler; `none` where the loop is blocked. -/
def stepThrd (t : Thrd) : Act → Option (Bool × Thrd)
  | .loop =>
      match t.point with
      | .top => some (false, t.goto (if t.isExit then .done else .testPause))
      | .testPause => some (false, t.goto (if t.isPause then .wait else .testHandler))
      | .wait => if t.sem = 0 then none
        else some (false, { t with sem := t.sem - 1, point := .testHandler })
      | .testHandler => some (false, t.goto (if t.handler then .testExit else .done))
      | .testExit => some (false, t.goto (if t.isExit then .done else .invoke))
      | .invoke => some (true, t.goto .running)
      | .running | .done => none
  | .returned again =>
      if t.point = .running then some (false, t.goto (if again then .top else .done)) else none
  | .pause => some (false, { t with isPause := true })
  | .resume => some (false, { t with isPause := false, posts := t.posts + 1 })
  | .close => some (false, { t with isExit := true, posts := t.posts + 1 })
  | .post => if t.posts = 0 then none
    else some (false, { t with posts := t.posts - 1, sem := t.sem + 1 })

def Undisturbed (_ : Thrd) (act : Act) : Prop := act ≠ .resume ∧ act ≠ .close
  deriving Decidable

/-- No post is left over or on its way, and the loop is not between its test of the flag and the
handler. -/
structure Quiet (t : Thrd) : Prop where
  sem : t.sem = 0
  posts : t.posts = 0
  point : t.point ≠ .testHandler ∧ t.point ≠ .testExit ∧ t.point ≠ .invoke

theorem Quiet.step (h : Quiet t) (hpause : t.isPause = true) (hact : Undisturbed t act)
    (hstep : stepThrd t act = some (invoked, t')) : Quiet t' ∧ t'.isPause = true ∧
    invoked = false := by
  obtain ⟨hsem, hposts, htest, hexit, hinvoke⟩ := h
  cases act with
  | loop =>
    cases hpoint : t.point with
    | top =>
      simp only [stepThrd, hpoint] at hstep
      split at hstep <;> cases hstep <;> exact ⟨⟨hsem, hposts, by simp [Thrd.goto]⟩, hpause, rfl⟩
    | testPause =>
      simp only [stepThrd, hpoint, hpause, if_true] at hstep
      cases hstep
      exact ⟨⟨hsem, hposts, by simp [Thrd.goto]⟩, hpause, rfl⟩
    | wait =>
      simp only [stepThrd, hpoint, hsem, if_true] at hstep
      cases hstep
    | testHandler => exact absurd hpoint htest
    | testExit => exact absurd hpoint hexit
    | invoke => exact absurd hpoint hinvoke
    | running | done =>
      simp only [stepThrd, hpoint] at hstep
      cases hstep
  | returned again =>
    simp only [stepThrd] at hstep
    split at hstep
    · cases hstep
      cases again <;> exact ⟨⟨hsem, hposts, by simp [Thrd.goto]⟩, hpause, rfl⟩
    · cases hstep
  | pause =>
    cases hstep
    exact ⟨⟨hsem, hposts, htest, hexit, hinvoke⟩, rfl, rfl⟩
  | resume => exact absurd rfl hact.1
  | close => exact absurd rfl hact.2
  | post =>
    simp only [stepThrd, hposts, if_true] at hstep
    cases hstep

/-- A pause of a thread that is quiet then holds, whatever was before: until a resume or a close
begins, no step invokes the handler. -/
theorem paused_stays_paused (hquiet : Quiet t) (hpause : stepThrd t .pause = some (b, t'))
    (hlater : Run stepThrd Undisturbed t' later t'') : ∀ e ∈ later, e.2 = false := by
  cases hpause
  have hinv : Quiet t'' ∧ t''.isPause = true ∧ ∀ e ∈ later, e.2 = false := by
    apply Run.invariant (fun history t => Quiet t ∧ t.isPause = true ∧
      ∀ e ∈ history, e.2 = false) _ _ hlater
    · exact ⟨⟨hquiet.sem, hquiet.posts, hquiet.point⟩, rfl, by simp⟩
    · rintro history t act invoked t' ⟨h, hpaused, hnone⟩ hact hstep
      obtain ⟨h', hpaused', hinvoked⟩ := h.step hpaused hact hstep
      refine ⟨h', hpaused', ?_⟩
      exact List.forall_mem_append.2 ⟨hnone, List.forall_mem_singleton.2 hinvoked⟩
  exact hinv.2.2

/-- The thread waits, is resumed, is paused in its handler, and waits again. -/
theorem paused_stays_paused_waiting : ∃ before t after t',
    Run stepThrd (fun _ _ => True) swThrdOpen before t ∧ t.point = .running ∧
    Run stepThrd Undisturbed { t with isPause := true } after t' ∧ t'.point = .wait ∧
    ∀ e ∈ after, e.2 = false := by
  obtain ⟨before, t, hbefore, rfl⟩ := exists_of_exec stepThrd (fun _ _ => True) swThrdOpen
    [.loop, .loop, .resume, .post, .loop, .loop, .loop, .loop]
    (fun _ t => t = ⟨false, false, true, 0, 0, .running⟩) (by decide)
  obtain ⟨after, t', hafter, hwait⟩ := exists_of_exec stepThrd Undisturbed
    ⟨true, false, true, 0, 0, .running⟩ [.returned true, .loop, .loop] (fun _ t => t.point = .wait)
    (by decide)
  exact ⟨before, _, after, t', .of_exec hbefore, rfl, .of_exec hafter, hwait,
    paused_stays_paused (t := ⟨false, false, true, 0, 0, .running⟩) ⟨rfl, rfl, by decide⟩ rfl
      (.of_exec hafter)⟩

/-- The post of a resume that finds the loop awake is left over: paused in its handler, the thread
gets past the semaphore and invokes the handler again. -/
theorem left_over_post_ends_pause : ∃ before t after t',
    Run stepThrd (fun _ _ => True) swThrdOpen before t ∧ t.point = .running ∧
    Run stepThrd Undisturbed { t with isPause := true } after t' ∧
    after.map Prod.fst = .returned true :: List.replicate 6 .loop ∧ ∃ e ∈ after, e.2 = true := by
  obtain ⟨before, t, hbefore, rfl⟩ := exists_of_exec stepThrd (fun _ _ => True) swThrdOpen
    [.resume, .post, .loop, .loop, .loop, .loop, .loop]
    (fun _ t => t = ⟨false, false, true, 1, 0, .running⟩) (by decide)
  obtain ⟨after, t', hafter, hinvoked⟩ := exists_of_exec stepThrd Undisturbed
    ⟨true, false, true, 1, 0, .running⟩ (.returned true :: List.replicate 6 .loop)
    (fun after _ => after.map Prod.fst = .returned true :: List.replicate 6 .loop ∧
      ∃ e ∈ after, e.2 = true)
    (by decide)
  exact ⟨before, _, after, t', .of_exec hbefore, rfl, .of_exec hafter, hinvoked⟩

end SwApi.Os
