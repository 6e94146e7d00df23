import SwApi.HostLookup.Addresses

/-! Any number of calls of `sw_gethostbyname2` at the same time: what becomes of their records, and
what they return. -/
namespace SwApi.HostLookup
open Library List Option

def Request.Finished (q : Request) : Prop := q.caller = .done ∧
    (q.worker = .idle ∨ q.worker = .done)
  deriving Decidable

/-- Records are not used after they were freed, they are freed once when their threads end, which
they can, and a call returns what its worker has got. -/
structure Handed (s : System) : Prop where
  accessed : ∀ before r after, s.entries = before ++ .use r :: after → Held before r
  atMost : ∀ r, s.entries.count (.release r) ≤ 1
  once : ∀ (r : Nat) (q : Request), s.requests[r]? = some q → q.Finished → .acquire r ∈ s.entries →
    s.entries.count (.release r) = 1
  progress : ∀ (r : Nat) (q : Request), s.requests[r]? = some q → ¬q.Finished →
    ∃ r' side ok addr, (s.step (.run r' side ok addr)).isSome
  answered : ∀ (r : Nat) (q : Request) (v : Nat), s.requests[r]? = some q → q.ret = some v → v = 0 ∨
    q.resolved = some v

/-- A thread that creates the mutex finds that there is still none, and gets one. -/
def Unraced (s : System) : Action → Prop
  | .call _ _ => True
  | .run r side ok _ => ∀ q ∈ s.requests[r]?, q.pc side = .sec .create → s.mutexes.mute = none ∧
    ok = true

instance (s : System) (a : Action) : Decidable (Unraced s a) := by
  unfold Unraced
  split <;> infer_instance

structure Steady (s : System) : Prop where
  clean : Clean s.entries
  fresh : ∀ r, .acquire r ∈ s.entries → r < s.requests.length
  single : Single s.mutexes
  threads : ∀ (r : Nat) (q : Request), s.requests[r]? = some q → ∀ side sec, q.pc side = .sec sec →
    Fits s.mutexes (r, side) sec
  holder : ∀ (r : Nat) (side : Side), s.mutexes.owners = [some (r, side)] →
    ∃ q, s.requests[r]? = some q ∧ ∃ sec, q.pc side = .sec sec ∧ sec.Inside
  phase : ∀ (r : Nat) (q : Request), s.requests[r]? = some q → Phase s.entries r q
  answer : ∀ (r : Nat) (q : Request), s.requests[r]? = some q → Answer q

theorem steady_init : Steady System.init where
  clean := .nil
  fresh r hmem := absurd hmem not_mem_nil
  single := .inl ⟨rfl, rfl⟩
  threads r q hq := by cases hq
  holder r side howner := by cases howner
  phase r q hq := by cases hq
  answer r q hq := by cases hq

section
variable {s : System}

theorem called_cases (h : (s.requests ++ [x])[r]? = some q) :
    s.requests[r]? = some q ∨ r = s.requests.length ∧ q = x := by
  rw [getElem?_append] at h
  split at h
  · exact .inl h
  · obtain ⟨hr, hx⟩ := List.getElem?_eq_some_iff.1 h
    rw [length_singleton] at hr
    refine .inr ⟨by omega, ?_⟩
    rw [← hx, getElem_singleton]

theorem called_phase (hfresh : .acquire r ∉ es) : Phase es r (.called named garbage) := by
  cases named with
  | false => exact .alone rfl fun hmem => absurd hmem hfresh
  | true => exact .alone rfl hfresh

theorem called_answer : Answer (.called named garbage) := by
  cases named with
  | false =>
    refine ⟨.inl rfl, fun v hv => .inl ?_, fun hidle => absurd rfl hidle, fun _ => rfl, nofun⟩
    cases hv
    rfl
  | true =>
    refine ⟨.inl rfl, fun v hv => ?_, fun hidle => absurd rfl hidle, fun _ => rfl, nofun⟩
    cases hv

theorem Steady.call (h : Steady s) (named : Bool) (garbage : Info) :
    Steady { s with requests := s.requests ++ [.called named garbage] } where
  clean := h.clean
  fresh r hmem := by
    have hr := h.fresh r hmem
    simp only [length_append]
    omega
  single := h.single
  threads r q hq side sec hsec := by
    rcases called_cases hq with hq | ⟨-, rfl⟩
    · exact h.threads r q hq side sec hsec
    · cases named <;> cases side <;> cases hsec
  holder r side howner := by
    obtain ⟨q, hq, hsec⟩ := h.holder r side howner
    refine ⟨q, ?_, hsec⟩
    rw [getElem?_append_left (List.getElem?_eq_some_iff.1 hq).1]
    exact hq
  phase r q hq := by
    rcases called_cases hq with hq | ⟨rfl, rfl⟩
    · exact h.phase r q hq
    · exact called_phase (fun hmem => absurd (h.fresh _ hmem) (Nat.lt_irrefl _))
  answer r q hq := by
    rcases called_cases hq with hq | ⟨-, rfl⟩
    · exact h.answer r q hq
    · exact called_answer

theorem set_cases (h : (s.requests.set r x)[i]? = some q) :
    i = r ∧ q = x ∨ i ≠ r ∧ s.requests[i]? = some q := by
  by_cases hi : r = i
  · subst hi
    rw [getElem?_set_self'] at h
    obtain ⟨-, -, rfl⟩ := map_eq_some_iff.1 h
    exact .inl ⟨rfl, rfl⟩
  · rw [getElem?_set_ne hi] at h
    exact .inr ⟨fun heq => hi heq.symm, h⟩

theorem leaving_eq {pc : Pc} (h : pc.stage = .leaving) : pc = .sec .exitSet := by
  cases pc with
  | sec sec => cases sec with
    | exitSet => rfl
    | _ => cases h
  | _ => cases h

theorem side_cases (side side' : Side) : side' = side ∨ side' = side.other := by
  cases side <;> cases side' <;> simp [Side.other]

theorem other_ne (side : Side) : side.other ≠ side := by cases side <;> exact nofun

theorem Steady.one_leaving (h : Steady s) {r : Nat} (hq : s.requests[r]? = some q)
    (hpc : q.pc side = .sec .exitSet) : (q.pc side.other).stage ≠ .leaving := by
  intro hstage
  have hme : s.mutexes.owners = [some (r, side)] := (h.threads r q hq side _ hpc).2
  have hother : s.mutexes.owners = [some (r, side.other)] :=
    (h.threads r q hq side.other _ (leaving_eq hstage)).2
  rw [hme] at hother
  injection hother with hsome
  injection hsome with hpair
  exact other_ne side (congrArg Prod.snd hpair).symm

theorem Steady.run (h : Steady s) {r : Nat} {q : Request} (hq : s.requests[r]? = some q)
    {side : Side} {ok : Bool} {addr : Option Nat}
    (hcreate : q.pc side = .sec .create → s.mutexes.mute = none ∧ ok = true) {moved : Moved}
    (hstep : q.proceed r side s.mutexes ok addr = some moved) :
    Steady ⟨moved.mutexes, s.requests.set r moved.request, s.entries ++ moved.entries⟩ := by
  have hphase := h.phase r q hq
  obtain ⟨hclean, hphase'⟩ := hphase.proceed h.clean (h.one_leaving hq) hstep
  have hentries := proceed_entries hstep
  have hinside : s.mutexes.owners = [some (r, side)] → ∃ sec, q.pc side = .sec sec ∧
    sec.Inside := by
    intro howner
    obtain ⟨q', hq', hsec⟩ := h.holder r side howner
    cases some.inj (hq.symm.trans hq')
    exact hsec
  have hkept := kept_proceed h.single (h.threads r q hq side) hinside hcreate hphase hstep
  have hlt : r < s.requests.length := (List.getElem?_eq_some_iff.1 hq).1
  have hset : (s.requests.set r moved.request)[r]? = some moved.request := getElem?_set_self hlt
  refine ⟨hclean, fun i hmem => ?_, hkept.single, fun i q' hq' side' sec hsec => ?_,
    fun i side' howner => ?_, fun i q' hq' => ?_, fun i q' hq' => ?_⟩
  · rw [length_set]
    rcases mem_append.1 hmem with hmem | hmem
    · exact h.fresh i hmem
    · rw [show i = r from hentries _ hmem]
      exact hlt
  · -- The thread that moved, the other thread of its call, and the threads of other calls.
    rcases set_cases hq' with ⟨rfl, rfl⟩ | ⟨hne, hq'⟩
    · rcases side_cases side side' with rfl | rfl
      · exact hkept.me sec hsec
      · refine hkept.others _ (fun heq => other_ne side (congrArg Prod.snd heq)) sec ?_
        exact h.threads i q hq side.other sec ((hkept.other sec).1 hsec)
    · exact hkept.others _ (fun heq => hne (congrArg Prod.fst heq)) sec
        (h.threads i q' hq' side' sec hsec)
  · by_cases hi : i = r
    · subst hi
      refine ⟨moved.request, hset, ?_⟩
      rcases side_cases side side' with rfl | rfl
      · exact hkept.mine howner
      · have hbefore := hkept.theirs _ (fun heq => other_ne side (congrArg Prod.snd heq)) howner
        obtain ⟨q', hq', sec, hsec, hin⟩ := h.holder i side.other hbefore
        cases some.inj (hq.symm.trans hq')
        exact ⟨sec, (hkept.other sec).2 hsec, hin⟩
    · obtain ⟨q', hq', hsec⟩ :=
        h.holder i side' (hkept.theirs _ (fun heq => hi (congrArg Prod.fst heq)) howner)
      refine ⟨q', ?_, hsec⟩
      rw [getElem?_set_ne (Ne.symm hi)]
      exact hq'
  · rcases set_cases hq' with ⟨rfl, rfl⟩ | ⟨hne, hq'⟩
    · exact hphase'
    · refine (h.phase i q' hq').frame fun e he heq => hne ?_
      rw [← heq, hentries e he]
  · rcases set_cases hq' with ⟨rfl, rfl⟩ | ⟨-, hq'⟩
    · exact (h.answer i q hq).proceed hphase hstep
    · exact h.answer i q' hq'

theorem Steady.step (h : Steady s) (hguard : Unraced s a) (hstep : s.step a = some (b, s')) :
    Steady s' := by
  cases a with
  | call named garbage =>
    cases hstep
    exact h.call named garbage
  | run r side ok addr =>
    obtain ⟨q, hq, hstep⟩ := bind_eq_some_iff.1 hstep
    obtain ⟨moved, hmoved, hstep⟩ := bind_eq_some_iff.1 hstep
    cases hstep
    exact h.run hq (hguard q hq) hmoved

theorem Steady.once (h : Steady s) (hq : s.requests[r]? = some q) (hfinished : q.Finished)
    (hmem : .acquire r ∈ s.entries) : s.entries.count (.release r) = 1 := by
  obtain ⟨hcaller, hworker⟩ := hfinished
  have hreleased : .release r ∈ s.entries := by
    cases h.phase r q hq with
    | alone hw hc =>
      rw [hcaller] at hc
      exact hc hmem
    | shared hc hw hshared =>
      rcases hworker with hidle | hdone
      · rw [hidle] at hw
        exact hw.elim
      · rw [hcaller, hdone] at hshared
        exact hshared.released.2
  have hpos := count_pos_iff.2 hreleased
  have hle := h.clean.count_release r
  omega

theorem proceed_or_lock {q : Request} (hidle : q.pc side ≠ .idle) (hdone : q.pc side ≠ .done) :
    (q.proceed r side m true none).isSome ∨ ∃ i, q.pc side = .sec (.lock i) ∧
    m.owners[i]? ≠ some none := by
  unfold Request.proceed
  cases hpc : q.pc side with
  | idle => exact absurd hpc hidle
  | done => exact absurd hpc hdone
  | store found =>
    cases found with
    | none | some a => exact .inl rfl
  | sec sec =>
    unfold Request.inSection
    cases sec with
    | lock i =>
      by_cases hfree : m.owners[i]? = some none
      · exact .inl (by simp [hfree])
      · exact .inr ⟨i, rfl, hfree⟩
    | aim | unlock =>
      cases hmute : m.mute with
      | none => exact .inl rfl
      | some i => exact .inl rfl
    | _ => exact .inl rfl
  | _ => exact .inl rfl

theorem step_isSome (hq : s.requests[r]? = some q)
    (h : (q.proceed r side s.mutexes true none).isSome) :
    (s.step (.run r side true none)).isSome := by
  obtain ⟨moved, hmoved⟩ := isSome_iff_exists.1 h
  simp [System.step, hq, hmoved]

theorem Steady.thread (h : Steady s) {r : Nat} (hq : s.requests[r]? = some q) (side : Side)
    (hidle : q.pc side ≠ .idle)
    (hdone : q.pc side ≠ .done) : ∃ r' side ok addr, (s.step (.run r' side ok addr)).isSome := by
  rcases proceed_or_lock hidle hdone with hsome | ⟨i, hpc, htaken⟩
  · exact ⟨r, side, true, none, step_isSome hq hsome⟩
  · obtain ⟨rfl, hmute⟩ := h.threads r q hq side _ hpc
    obtain ⟨-, owner, howners⟩ := h.single.mute_zero hmute
    cases owner with
    | none =>
      rw [howners] at htaken
      exact absurd rfl htaken
    | some thread =>
      obtain ⟨q', hq', sec, hsec, hin⟩ := h.holder thread.1 thread.2 howners
      have hmoves : (q'.proceed thread.1 thread.2 s.mutexes true none).isSome := by
        rcases proceed_or_lock (by rw [hsec]; exact nofun) (by rw [hsec]; exact nofun) with hsome
          | ⟨i, hlock, -⟩
        · exact hsome
        · rw [hsec] at hlock
          cases hlock
          exact hin.elim
      exact ⟨thread.1, thread.2, true, none, step_isSome hq' hmoves⟩

theorem Phase.caller_ne_idle (h : Phase es r q) : q.caller ≠ .idle := by
  intro hidle
  cases h with
  | alone _ hc | shared hc _ _ =>
    rw [hidle] at hc
    exact hc

theorem Steady.progress (h : Steady s) {r : Nat} (hq : s.requests[r]? = some q)
    (hunfinished : ¬q.Finished) : ∃ r' side ok addr, (s.step (.run r' side ok addr)).isSome := by
  by_cases hcaller : q.caller = .done
  · have hworker : ¬(q.worker = .idle ∨ q.worker = .done) :=
      fun hworker => hunfinished ⟨hcaller, hworker⟩
    exact h.thread hq .worker (fun hidle => hworker (.inl hidle)) fun hdone => hworker (.inr hdone)
  · exact h.thread hq .caller (h.phase r q hq).caller_ne_idle hcaller

theorem Steady.handed (h : Steady s) : Handed s where
  accessed before r after hentries := by
    have hclean := h.clean
    rw [hentries] at hclean
    exact hclean.legal
  atMost := h.clean.count_release
  once r q := h.once
  progress r q := h.progress
  answered r q v hq hv := (h.answer r q hq).ret v hv

end

/-- In every run in which no thread creates a mutex where there is one, or fails to. -/
theorem handed_along {history : List (Action × Unit)} {s : System}
    (h : Run System.step Unraced System.init history s) : Handed s := by
  have hsteady : Steady s := by
    refine h.invariant (fun _ s => Steady s) steady_init ?_
    intro history s a b s' hs hguard hstep
    exact hs.step hguard hstep
  exact hsteady.handed

def steps (side : Side) (n : Nat) : List Action := replicate n (.run 0 side true (some 5))

/-- The wait is over when the worker has stored its address: the caller leaves first, and the worker
frees the record. -/
theorem handed_along_call : ∃ history s q, Run System.step Unraced System.init history s ∧
    s.requests[0]? = some q ∧ q.Finished ∧
    q.ret = some 5 ∧ s.entries.count (.release 0) = 1 ∧ Handed s := by
  obtain ⟨history, s, he, q, hq, hfinished, hret, hacquired⟩ :=
    exists_of_exec System.step Unraced System.init
    (.call true ⟨true, 7⟩ :: steps .caller 9 ++ steps .worker 2 ++ steps .caller 8 ++ steps .worker
      8)
    (fun _ s => ∃ q ∈ s.requests[0]?, q.Finished ∧ q.ret = some 5 ∧ .acquire 0 ∈ s.entries)
      (by decide +kernel)
  have h := handed_along (.of_exec he)
  exact ⟨history, s, q, .of_exec he, hq, hfinished, hret, h.once 0 q hq hfinished hacquired, h⟩

/-- Both threads of the first call find that there is no mutex, and each of them locks one of its
own. Then both find that they are the first to leave, and nobody frees the record. -/
theorem two_mutexes_lose_the_record : ∃ history s,
    Run System.step (fun _ _ => True) System.init history s ∧ ¬Handed s := by
  refine exists_run (.call true ⟨true, 7⟩ :: steps .caller 10 ++ steps .worker 3 ++
    steps .caller 3 ++ steps .worker 3 ++ steps .caller 2 ++ steps .worker 2 ++
    steps .caller 2 ++ steps .worker 2) (fun _ s => ∃ q ∈ s.requests[0]?,
      q.Finished ∧ .acquire 0 ∈ s.entries ∧ s.entries.count (.release 0) = 0)
    (by decide +kernel) ?_
  rintro history s - ⟨q, hq, hfinished, hacquired, hlost⟩ hhanded
  have honce := hhanded.once 0 q hq hfinished hacquired
  rw [hlost] at honce
  cases honce

end SwApi.HostLookup
