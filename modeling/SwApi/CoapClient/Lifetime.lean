import SwApi.CoapClient.Model

/-! Callbacks that do not overlap never touch a record whose semaphore has been deleted. -/
namespace SwApi.CoapClient
open Library List Option

variable {id : UInt8 × UInt8}

inductive Changes (r : Nat) : Action → Request → Request → Prop where
  | proceed {q outcome q' sent} : q.proceed r sent = some (outcome, q') →
    Changes r (.proceed r sent) q q'
  | receive {q q' pdata id} : replyId pdata = some id → q.awaits id = true →
    q.accept pdata = some q' → Changes r (.receive pdata) q q'
  | give {q q'} : q.give = some q' → Changes r (.give r) q q'
  | fire {q q'} : q.fire = some q' → Changes r (.fire r) q q'
  | store {q q'} : q.store = some q' → Changes r (.store r) q q'
  | timeoutGive {q q'} : q.timeoutGive = some q' → Changes r (.timeoutGive r) q q'

section
variable {s : System}

theorem update_inv (h : s.update r f = some s') :
    ∃ q q', s.requests[r]? = some q ∧ f q = some q' ∧
    s' = { s with requests := s.requests.set r q' } := by
  obtain ⟨q, hq, h⟩ := bind_eq_some_iff.1 h
  obtain ⟨q', hq', h⟩ := bind_eq_some_iff.1 h
  exact ⟨q, q', hq, hq', (some.inj h).symm⟩

theorem callback_inv (h : s.callback r f = some (outcome, s')) :
    outcome = s.touch [r] ∧ s.update r f = some s' := by
  obtain ⟨s₁, hs, h⟩ := bind_eq_some_iff.1 h
  cases h
  exact ⟨rfl, hs⟩

theorem proceed_inv (h : s.proceed r sent = some (outcome, s')) :
    ∃ q q', s.requests[r]? = some q ∧ q.proceed r sent = some (outcome, q') ∧
      s' = ⟨s.requests.set r q', if q'.place = .freeing then s.handle.set q.index none
      else s.handle⟩ := by
  obtain ⟨q, hq, h⟩ := bind_eq_some_iff.1 h
  obtain ⟨⟨outcome', q'⟩, hq', h⟩ := bind_eq_some_iff.1 h
  cases h
  exact ⟨q, q', hq, hq', rfl⟩

theorem search_read {requests : List Request}
    (h : r ∈ (search requests id handle).1) : some r ∈ handle := by
  induction handle with
  | nil => cases h
  | cons entry handle ih =>
    cases entry with
    | none => exact mem_cons_of_mem _ (ih h)
    | some r' =>
      rw [search] at h
      split at h
      · cases mem_singleton.1 h
        exact mem_cons_self
      · rcases mem_cons.1 h with rfl | h
        · exact mem_cons_self
        · exact mem_cons_of_mem _ (ih h)

theorem search_found {requests : List Request}
    (h : (search requests id handle).2 = some r) :
    some r ∈ handle ∧ ∃ q, requests[r]? = some q ∧ q.awaits id = true := by
  induction handle with
  | nil => cases h
  | cons entry handle ih =>
    cases entry with
    | none =>
      obtain ⟨hmem, hfound⟩ := ih h
      exact ⟨mem_cons_of_mem _ hmem, hfound⟩
    | some r' =>
      rw [search] at h
      split at h
      · rename_i hawaits
        cases h
        cases hq : requests[r]? with
        | none =>
          rw [hq] at hawaits
          cases hawaits
        | some q =>
          rw [hq] at hawaits
          exact ⟨mem_cons_self, q, rfl, hawaits⟩
      · obtain ⟨hmem, hfound⟩ := ih h
        exact ⟨mem_cons_of_mem _ hmem, hfound⟩

theorem receive_inv (h : s.receive pdata = some (outcome, s')) :
    ∃ read, outcome = s.touch read ∧ (∀ r ∈ read, some r ∈ s.handle) ∧
      (s' = s ∨ ∃ r q q', s.requests[r]? = some q ∧ Changes r (.receive pdata) q q' ∧
        s' = { s with requests := s.requests.set r q' }) := by
  unfold System.receive at h
  cases hid : replyId pdata with
  | none =>
    rw [hid] at h
    cases h
    exact ⟨[], rfl, forall_mem_nil _, .inl rfl⟩
  | some id =>
    rw [hid] at h
    dsimp only at h
    have hread (r : Nat) (hr : r ∈ (search s.requests id s.handle).1) : some r ∈ s.handle :=
      search_read hr
    have hfound (r : Nat) (hr : (search s.requests id s.handle).2 = some r) := search_found hr
    generalize search s.requests id s.handle = x at h hread hfound
    obtain ⟨read, found⟩ := x
    cases found with
    | none =>
      cases h
      exact ⟨read, rfl, hread, .inl rfl⟩
    | some r =>
      obtain ⟨s₁, hs, h⟩ := bind_eq_some_iff.1 h
      cases h
      obtain ⟨q, q', hq, hq', rfl⟩ := update_inv hs
      obtain ⟨-, q₁, hq₁, hawaits⟩ := hfound r rfl
      cases hq.symm.trans hq₁
      exact ⟨read, rfl, hread, .inr ⟨r, q, q', hq, .receive hid hawaits hq', rfl⟩⟩

end

def Request.Busy (q : Request) : Prop := 0 < q.replies ∨ q.timer = .started ∨ q.timer = .stored

/-- At most one callback has to touch the record, and its requester waits for it. -/
structure Calm (q : Request) : Prop where
  busy : q.Busy → q.place = .waiting ∧ q.client.recvRespSem = false
  asked : q.client.result = .waitting → q.place = .waiting ∧ q.client.recvRespSem = false ∧
    q.replies = 0 ∧ q.timer ≠ .stored
  single : 0 < q.replies → q.replies = 1 ∧ q.timer ≠ .started ∧ q.timer ≠ .stored
  early : q.place = .sending ∨ q.place = .arming ∨ q.place = .storing → q.client.recvRespSem = false

/-- The callbacks of a record do not overlap: its timeout starts only while it waits for a reply,
and no reply to it comes between the start of the callback and its section. -/
def Apart (s : System) : Action → Prop
  | .fire r => ∀ q ∈ s.requests[r]?, q.client.result = .waitting
  | .receive pdata => ∀ q ∈ s.requests, replyId pdata = some q.client.msgid → q.timer ≠ .started
  | _ => True

section
variable {q : Request}

theorem Calm.of_idle (hidle : ¬q.Busy) (hresult : q.client.result ≠ .waitting)
    (hearly : q.place = .sending ∨ q.place = .arming ∨ q.place = .storing →
    q.client.recvRespSem = false) : Calm q :=
  ⟨fun h => absurd h hidle, fun h => absurd h hresult, fun h => absurd (.inl h) hidle, hearly⟩

theorem Calm.idle (h : Calm q) (hplace : q.place ≠ .waiting) : ¬q.Busy ∧
    q.client.result ≠ .waitting :=
  ⟨fun hbusy => hplace (h.busy hbusy).1, fun hresult => hplace (h.asked hresult).1⟩

theorem proceed_idle (h : q.proceed r sent = some (outcome, q')) (hplace : q.place ≠ .storing) :
    (q'.Busy → q.Busy) ∧ (q'.client.result = .waitting → q.client.result = .waitting) ∧
      (q'.place = .sending ∨ q'.place = .arming ∨ q'.place = .storing →
        (q.place = .sending ∨ q.place = .arming) ∧
        q'.client.recvRespSem = q.client.recvRespSem) := by
  unfold Request.proceed at h
  split at h
  all_goals grind [Request.withResult, Request.Busy]

theorem Calm.proceed (h : Calm q) (hstep : q.proceed r sent = some (outcome, q')) : Calm q' := by
  by_cases hstoring : q.place = .storing
  · have hsem := h.early (.inr (.inr hstoring))
    obtain ⟨hidle, -⟩ := h.idle (by rw [hstoring]; exact nofun)
    obtain ⟨hreplies, htimer⟩ := not_or.1 hidle
    rw [Request.proceed, hstoring] at hstep
    cases hstep
    refine ⟨fun hbusy => absurd hbusy hidle, fun _ => ⟨rfl, hsem, Nat.eq_zero_of_not_pos hreplies,
      fun h => htimer (.inr h)⟩, fun h => absurd h hreplies, fun _ => hsem⟩
  · obtain ⟨hbusy, hresult, hearly⟩ := proceed_idle hstep hstoring
    by_cases hwaiting : q.place = .waiting
    · -- The semaphore has been given, so the callback is over.
      rw [Request.proceed, hwaiting] at hstep
      dsimp only at hstep
      split at hstep
      · rename_i hsem
        cases hstep
        refine .of_idle (fun h' => ?_) (fun h' => ?_) fun _ => rfl
        · exact absurd hsem (by rw [(h.busy (hbusy h')).2]; exact Bool.false_ne_true)
        · exact absurd hsem (by rw [(h.asked (hresult h')).2.1]; exact Bool.false_ne_true)
      · cases hstep
    · obtain ⟨hidle, hdone⟩ := h.idle hwaiting
      refine .of_idle (fun h' => hidle (hbusy h')) (fun h' => hdone (hresult h')) fun h' => ?_
      obtain ⟨hplace, hsem⟩ := hearly h'
      exact hsem.trans (h.early (hplace.imp_right .inl))

theorem Calm.accept {pdata : Bytes} (h : Calm q) (hawaits : q.awaits id = true)
    (htimer : q.timer ≠ .started) (hstep : q.accept pdata = some q') : Calm q' := by
  obtain ⟨-, hresult⟩ := of_decide_eq_true hawaits
  obtain ⟨hplace, hsem, hreplies, hstored⟩ := h.asked hresult
  unfold Request.accept at hstep
  split at hstep
  · cases hstep
    refine ⟨fun _ => ⟨hplace, hsem⟩, nofun, fun _ => ⟨?_, htimer, hstored⟩, fun _ => hsem⟩
    dsimp only
    rw [hreplies]
  · cases hstep

theorem Calm.give (h : Calm q) (hstep : q.give = some q') : Calm q' := by
  unfold Request.give at hstep
  split at hstep
  · cases hstep
  · rename_i n hreplies
    have hpos : 0 < q.replies := by omega
    obtain ⟨hone, hstarted, hstored⟩ := h.single hpos
    have hplace := (h.busy (.inl hpos)).1
    cases hstep
    refine .of_idle ?_ (fun hresult => ?_) fun hearly => ?_
    · rintro (h' | h' | h')
      · dsimp only at h'
        omega
      · exact hstarted h'
      · exact hstored h'
    · have := (h.asked hresult).2.2.1
      omega
    · rw [hplace] at hearly
      simp at hearly

theorem Calm.fire (h : Calm q) (hresult : q.client.result = .waitting) (hstep : q.fire = some q') :
    Calm q' := by
  obtain ⟨hplace, hsem, hreplies, -⟩ := h.asked hresult
  unfold Request.fire at hstep
  split at hstep
  · cases hstep
    refine ⟨fun _ => ⟨hplace, hsem⟩, fun _ => ⟨hplace, hsem, hreplies, nofun⟩, fun h' => ?_,
      fun _ => hsem⟩
    exact absurd hreplies (Nat.ne_of_gt h')
  · cases hstep

theorem Calm.store (h : Calm q) (hstep : q.store = some q') : Calm q' := by
  unfold Request.store at hstep
  split at hstep
  · rename_i htimer
    obtain ⟨hplace, hsem⟩ := h.busy (.inr (.inl htimer))
    cases hstep
    refine ⟨fun _ => ⟨hplace, hsem⟩, nofun, fun h' => ?_, fun _ => hsem⟩
    exact absurd htimer (h.single h').2.1
  · cases hstep

theorem Calm.timeoutGive (h : Calm q) (hstep : q.timeoutGive = some q') : Calm q' := by
  unfold Request.timeoutGive at hstep
  split at hstep
  · rename_i htimer
    have hplace := (h.busy (.inr (.inr htimer))).1
    cases hstep
    refine .of_idle ?_ (fun hresult => (h.asked hresult).2.2.2 htimer) fun hearly => ?_
    · rintro (h' | h' | h')
      · exact (h.single h').2.2 htimer
      · cases h'
      · cases h'
    · rw [hplace] at hearly
      simp at hearly
  · cases hstep

end

def Request.Kept (q : Request) : Prop := q.place ≠ .freeing ∧ q.place ≠ .gone

theorem Request.Kept.isLive {q : Request} (h : q.Kept) : q.isLive = true := by
  unfold Request.isLive
  split
  · exact absurd ‹_› h.1
  · exact absurd ‹_› h.2
  · rfl

structure Orderly (s : System) : Prop where
  calm : ∀ q ∈ s.requests, Calm q
  listed : ∀ i r, s.handle[i]? = some (some r) → ∃ q : Request, s.requests[r]? = some q ∧
    q.index = i ∧ q.Kept

def Outcome.records : Outcome → List (Nat × Bool)
  | .touched records => records
  | _ => []

section
variable {s : System} {r : Nat} {q : Request}

theorem orderly_init : Orderly (System.init num) where
  calm q hq := absurd hq not_mem_nil
  listed i r h := by
    rw [System.init, getElem?_replicate] at h
    split at h <;> cases h

section
variable (h : Orderly s) (hq : s.requests[r]? = some q)
include h hq

theorem Orderly.get : Calm q := h.calm q (mem_of_getElem? hq)

theorem Orderly.set (hcalm : Calm q') (hindex : q'.index = q.index)
    (hkept : q.Kept → q'.Kept) : Orderly { s with requests := s.requests.set r q' } where
  calm x hx := (mem_or_eq_of_mem_set hx).elim (h.calm x) fun heq => heq ▸ hcalm
  listed i r' hi := by
    obtain ⟨x, hx, hxi, hxk⟩ := h.listed i r' hi
    by_cases hr : r = r'
    · subst hr
      cases hq.symm.trans hx
      exact ⟨q', getElem?_set_self (List.getElem?_eq_some_iff.1 hq).1, hindex.trans hxi, hkept hxk⟩
    · exact ⟨x, (getElem?_set_ne hr).trans hx, hxi, hxk⟩

theorem Orderly.delete (hcalm : Calm q') :
    Orderly ⟨s.requests.set r q', s.handle.set q.index none⟩ where
  calm x hx := (mem_or_eq_of_mem_set hx).elim (h.calm x) fun heq => heq ▸ hcalm
  listed i r' hi := by
    rw [getElem?_set] at hi
    split at hi
    · split at hi <;> cases hi
    · rename_i hne
      obtain ⟨x, hx, hxi, hxk⟩ := h.listed i r' hi
      have hr : r ≠ r' := by
        rintro rfl
        cases hq.symm.trans hx
        exact hne hxi
      exact ⟨x, (getElem?_set_ne hr).trans hx, hxi, hxk⟩

end

theorem Orderly.create (h : Orderly s) (hstep : s.create msgid type = some s') : Orderly s' := by
  obtain ⟨i, -, hstep⟩ := bind_eq_some_iff.1 hstep
  cases hstep
  refine ⟨forall_mem_append.2 ⟨h.calm, forall_mem_singleton.2 ?_⟩, fun j r hj => ?_⟩
  · refine .of_idle ?_ nofun fun _ => rfl
    rintro (h | h | h)
    · exact absurd h (Nat.lt_irrefl 0)
    · cases h
    · cases h
  · dsimp only at hj ⊢
    rw [getElem?_set] at hj
    split at hj
    · rename_i heq
      split at hj
      · cases hj
        exact ⟨_, getElem?_concat_length, heq, nofun, nofun⟩
      · cases hj
    · obtain ⟨x, hx, hrest⟩ := h.listed j r hj
      exact ⟨x, (getElem?_append_left (List.getElem?_eq_some_iff.1 hx).1).trans hx, hrest⟩

theorem proceed_frame (h : q.proceed r sent = some (outcome, q')) :
    outcome.records = [] ∧ q'.client.msgid = q.client.msgid ∧ (q'.Kept → q.Kept) ∧
      (q'.place ≠ .freeing → q'.index = q.index ∧ (q.Kept → q'.Kept)) := by
  unfold Request.proceed at h
  split at h
  all_goals grind [Request.withResult, Request.Kept, Outcome.records]

theorem Orderly.proceed (h : Orderly s) (hstep : s.proceed r sent = some (outcome, s')) :
    Orderly s' ∧ outcome.records = [] := by
  obtain ⟨q, q', hq, hq', rfl⟩ := proceed_inv hstep
  have hcalm := (h.get hq).proceed hq'
  obtain ⟨hrecords, -, -, hframe⟩ := proceed_frame hq'
  refine ⟨?_, hrecords⟩
  by_cases hplace : q'.place = .freeing
  · rw [if_pos hplace]
    exact h.delete hq hcalm
  · rw [if_neg hplace]
    obtain ⟨hindex, hkept⟩ := hframe hplace
    exact h.set hq hcalm hindex hkept

/-- What a callback leaves of a record. -/
structure Frame (q q' : Request) : Prop where
  index : q'.index = q.index
  place : q'.place = q.place
  msgid : q'.client.msgid = q.client.msgid

theorem Frame.kept (h : Frame q q') : q'.Kept ↔
    q.Kept := by rw [Request.Kept, Request.Kept, h.place]

theorem Orderly.update (h : Orderly s) (hstep : s.update r f = some s')
    (hcalm : ∀ q q', s.requests[r]? = some q → f q = some q' → Calm q')
    (hframe : ∀ q q', f q = some q' → Frame q q') : Orderly s' := by
  obtain ⟨q, q', hq, hq', rfl⟩ := update_inv hstep
  have hframe := hframe q q' hq'
  exact h.set hq (hcalm q q' hq hq') hframe.index hframe.kept.2

theorem isLive_of_kept (hq : s.requests[r]? = some q) (hkept : q.Kept) : s.isLive r = true := by
  rw [System.isLive, hq]
  exact hkept.isLive

theorem touch_live (h : ∀ r ∈ records, s.isLive r = true) : ∀ t ∈ (s.touch records).records,
    t.2 = true := by
  intro t ht
  obtain ⟨r, hr, rfl⟩ := mem_map.1 ht
  exact h r hr

theorem Orderly.callback (h : Orderly s) (hstep : s.callback r f = some (outcome, s'))
    (hcalm : ∀ q q', Calm q → f q = some q' → Calm q') (hbusy : ∀ q q', f q = some q' → q.Busy)
    (hframe : ∀ q q', f q = some q' → Frame q q') : Orderly s' ∧ ∀ t ∈ outcome.records,
    t.2 = true := by
  obtain ⟨rfl, hupdate⟩ := callback_inv hstep
  refine ⟨h.update hupdate (fun q q' hq => hcalm q q' (h.get hq)) hframe, touch_live fun r' hr' =>
    ?_⟩
  cases mem_singleton.1 hr'
  obtain ⟨q, q', hq, hq', -⟩ := update_inv hupdate
  have hplace := ((h.get hq).busy (hbusy q q' hq')).1
  refine isLive_of_kept hq ?_
  rw [Request.Kept, hplace]
  exact ⟨nofun, nofun⟩

theorem accept_frame (h : q.accept pdata = some q') : Frame q q' := by
  unfold Request.accept at h
  grind [Frame]

theorem Orderly.receive (h : Orderly s) (hapart : Apart s (.receive pdata))
    (hstep : s.receive pdata = some (outcome, s')) : Orderly s' ∧ ∀ t ∈ outcome.records,
    t.2 = true := by
  obtain ⟨read, rfl, hread, hcases⟩ := receive_inv hstep
  refine ⟨?_, touch_live fun r hr => ?_⟩
  · rcases hcases with rfl | ⟨r, q, q', hq, hchanges, rfl⟩
    · exact h
    · cases hchanges with
      | receive hid hawaits haccept =>
        obtain ⟨hmsgid, -⟩ := of_decide_eq_true hawaits
        have htimer := hapart q (mem_of_getElem? hq) (hid.trans (congrArg some hmsgid.symm))
        have hframe := accept_frame haccept
        exact h.set hq ((h.get hq).accept hawaits htimer haccept) hframe.index hframe.kept.2
  · obtain ⟨i, hi⟩ := mem_iff_getElem?.1 (hread r hr)
    obtain ⟨q, hq, -, hkept⟩ := h.listed i r hi
    exact isLive_of_kept hq hkept

theorem give_frame (h : q.give = some q') : q.Busy ∧ Frame q q' := by
  unfold Request.give at h
  grind [Request.Busy, Frame]

theorem store_frame (h : q.store = some q') : q.Busy ∧ Frame q q' := by
  unfold Request.store at h
  grind [Request.Busy, Frame]

theorem timeoutGive_frame (h : q.timeoutGive = some q') : q.Busy ∧ Frame q q' := by
  unfold Request.timeoutGive at h
  grind [Request.Busy, Frame]

theorem fire_frame (h : q.fire = some q') : Frame q q' := by
  unfold Request.fire at h
  grind [Frame]

theorem Orderly.step (h : Orderly s) (hapart : Apart s a) (hstep : step s a = some (outcome, s')) :
    Orderly s' ∧ ∀ t ∈ outcome.records, t.2 = true := by
  have hquiet (t : Nat × Bool) (ht : t ∈ Outcome.quiet.records) : t.2 = true :=
    absurd ht not_mem_nil
  cases a with
  | create msgid type =>
    obtain ⟨s₁, hs, hstep⟩ := bind_eq_some_iff.1 hstep
    cases hstep
    exact ⟨h.create hs, hquiet⟩
  | proceed r sent =>
    obtain ⟨horderly, hnone⟩ := h.proceed hstep
    exact ⟨horderly, fun t ht => absurd (hnone ▸ ht) not_mem_nil⟩
  | receive pdata => exact h.receive hapart hstep
  | give r =>
    exact h.callback hstep (fun _ _ => Calm.give) (fun _ _ h' => (give_frame h').1) fun _ _ h' =>
      (give_frame h').2
  | fire r =>
    obtain ⟨s₁, hs, hstep⟩ := bind_eq_some_iff.1 hstep
    cases hstep
    exact ⟨h.update hs (fun q q' hq => (h.get hq).fire (hapart q hq)) fun _ _ => fire_frame, hquiet⟩
  | store r =>
    exact h.callback hstep (fun _ _ => Calm.store) (fun _ _ h' => (store_frame h').1) fun _ _ h' =>
      (store_frame h').2
  | timeoutGive r =>
    exact h.callback hstep (fun _ _ => Calm.timeoutGive) (fun _ _ h' => (timeoutGive_frame h').1)
      fun _ _ h' => (timeoutGive_frame h').2

end

/-- Where the callbacks of no record overlap, no callback touches a record after its semaphore has
been deleted or the record freed. -/
theorem run_touches_live {num : Nat} {history : List (Action × Outcome)} {s : System}
    (hrun : Run step Apart (System.init num) history s) : ∀ x ∈ history, ∀ t ∈ x.2.records,
    t.2 = true := by
  refine (Run.invariant (fun history s => Orderly s ∧ ∀ x ∈ history, ∀ t ∈ x.2.records,
    t.2 = true) ?_ ?_ hrun).2
  · exact ⟨orderly_init, forall_mem_nil _⟩
  · intro history s a outcome s' hinv hapart hstep
    obtain ⟨horderly, hlive⟩ := hinv.1.step hapart hstep
    exact ⟨horderly, forall_mem_append.2 ⟨hinv.2, forall_mem_singleton.2 hlive⟩⟩

instance (s : System) (a : Action) : Decidable (Apart s a) := by
  unfold Apart
  split <;> infer_instance

def ackData : Bytes := [0x60, 0x45, 1, 2]

def asking : List Action := [.create (1, 2) .con, .proceed 0 true, .proceed 0 true, .proceed 0 true]

def ending : List Action := replicate 5 (.proceed 0 true)

theorem run_touches_live_answered : ∃ history s, Run step Apart (System.init 1) history s ∧
    history.map Prod.fst = asking ++ [.receive ackData, .give 0] ++ ending ∧
    ∀ x ∈ history, ∀ t ∈ x.2.records, t.2 = true := by
  refine exists_run (asking ++ [.receive ackData, .give 0] ++ ending) (fun history _ =>
    history.map Prod.fst = asking ++ [.receive ackData, .give 0] ++ ending) (by decide +kernel) ?_
  intro history s hrun hactions
  exact ⟨hactions, run_touches_live hrun⟩

/-- The timeout callback has started when the reply wakes the requester, and stores its result in
the freed record. -/
theorem timeout_touches_freed_record : ∃ history s,
    Run step (fun _ _ => True) (System.init 1) history s ∧
    ∃ x ∈ history, ∃ t ∈ x.2.records, t.2 = false := by
  exact exists_run (asking ++ [.fire 0, .receive ackData, .give 0] ++ ending ++ [.store 0]) _
    (by decide +kernel) fun _ => id

end SwApi.CoapClient
