import SwApi.CoapClient.Lifetime

/-! The result of one confirmable request: when a reply before the timeout makes it a success. -/
namespace SwApi.CoapClient
open Library List Option

def Sent (history : List (Action × Outcome)) : Prop := ∃ x ∈ history, x.2 = .sent 0
  deriving Decidable

def Woken (history : List (Action × Outcome)) : Prop := ∃ x ∈ history, x.2 = .woken 0
  deriving Decidable

def Fired (history : List (Action × Outcome)) : Prop := ∃ x ∈ history, x.1 = .fire 0
  deriving Decidable

/-- A reply came behind the send and before the timeout callback. -/
def Answered (id : UInt8 × UInt8) (history : List (Action × Outcome)) : Prop :=
  ∃ before pdata outcome after, history = before ++ (.receive pdata, outcome) :: after ∧
    replyId pdata = some id ∧ Sent before ∧ ¬Fired before

section
variable {id : UInt8 × UInt8}

theorem sent_snoc : Sent (history ++ [(a, outcome)]) ↔ Sent history ∨ outcome = .sent 0 := by
  simp [Sent, or_and_right, exists_or]

theorem woken_snoc : Woken (history ++ [(a, outcome)]) ↔ Woken history ∨ outcome = .woken 0 := by
  simp [Woken, or_and_right, exists_or]

theorem fired_snoc : Fired (history ++ [(a, outcome)]) ↔ Fired history ∨ a = .fire 0 := by
  simp [Fired, or_and_right, exists_or]

theorem answered_snoc : Answered id (history ++ [(a, outcome)]) ↔
    Answered id history ∨ ∃ pdata, a = .receive pdata ∧ replyId pdata = some id ∧ Sent history ∧
    ¬Fired history := by
  constructor
  · rintro ⟨before, pdata, outcome', after, heq, hid, hsent, hfired⟩
    rcases eq_nil_or_concat after with rfl | ⟨after', x, rfl⟩
    · obtain ⟨rfl, hlast⟩ := append_inj' heq rfl
      cases hlast
      exact .inr ⟨pdata, rfl, hid, hsent, hfired⟩
    · rw [concat_eq_append, ← cons_append, ← append_assoc] at heq
      obtain ⟨rfl, -⟩ := append_inj' heq rfl
      exact .inl ⟨before, pdata, outcome', after', rfl, hid, hsent, hfired⟩
  · rintro (⟨before, pdata, outcome', after, rfl, hrest⟩ | ⟨pdata, rfl, hrest⟩)
    · refine ⟨before, pdata, outcome', after ++ [(a, outcome)], ?_, hrest⟩
      rw [append_assoc, cons_append]
    · exact ⟨history, pdata, outcome, [], rfl, hrest⟩

end

structure Course (woken sent fired answered : Prop) (q : Request) : Prop where
  con : q.client.type = .con
  asked : q.client.result = .waitting → q.place = .waiting ∧ q.client.recvRespSem = false ∧
    q.replies = 0 ∧ q.timer ≠ .stored
  early : q.place = .sending ∨ q.place = .arming ∨ q.place = .storing → q.client.result = .init ∧
    q.client.recvRespSem = false ∧ ¬q.Busy
  later : q.place ≠ .sending → q.place ≠ .arming → q.place ≠ .storing → q.place ≠ .finishing ∧
    q.client.result ∈ [ReqResult.waitting, .timeout, .failed, .success]
  waits : q.place = .waiting → q.client.result ≠ .failed
  woken : woken → q.place ≠ .sending ∧ q.place ≠ .arming ∧ q.place ≠ .storing ∧ q.place ≠ .waiting ∧
    q.client.result ≠ .failed
  sent : sent → q.place ≠ .sending ∧ q.client.result ≠ .failed
  unfired : ¬fired → q.timer ≠ .started ∧ q.timer ≠ .stored ∧ q.client.result ≠ .timeout
  answered : answered → q.client.result = .success ∧ q.timer ≠ .started ∧ q.timer ≠ .stored

section
variable {woken sent answered : Prop}

section
variable (h : Course woken sent fired answered q)
include h

theorem Course.mono (hwoken : woken' → woken)
    (hsent : sent' → sent) (hfired : fired → fired') (hanswered : answered' → answered) :
    Course woken' sent' fired' answered' q :=
  ⟨h.con, h.asked, h.early, h.later, h.waits, fun h' => h.woken (hwoken h'),
    fun h' => h.sent (hsent h'),
    fun h' => h.unfired fun h'' => h' (hfired h''), fun h' => h.answered (hanswered h')⟩

theorem Course.proceed (hstep : q.proceed 0 ok = some (outcome, q')) :
    Course (woken ∨ outcome = .woken 0) (sent ∨ outcome = .sent 0) fired answered q' := by
  cases h
  unfold Request.proceed at hstep
  split at hstep
  all_goals constructor
  all_goals grind [Request.withResult, Request.Busy]

theorem Course.accept {pdata : Bytes} {id : UInt8 × UInt8}
    (hawaits : q.awaits id = true) (hstep : q.accept pdata = some q') :
    Course woken sent fired (answered ∨ sent ∧ ¬fired) q' := by
  obtain ⟨-, hresult⟩ := of_decide_eq_true hawaits
  obtain ⟨hplace, -⟩ := h.asked hresult
  unfold Request.accept at hstep
  split at hstep
  · cases hstep
    refine ⟨h.con, nofun, fun hearly => ?_, fun _ _ _ => ⟨?_, by simp⟩, nofun,
      fun hwoken => ?_, fun hsent => ⟨(h.sent hsent).1, nofun⟩, fun hunfired => ?_, ?_⟩
    · dsimp only at hearly
      rw [hplace] at hearly
      simp at hearly
    · dsimp only
      rw [hplace]
      exact nofun
    · exact absurd hplace (h.woken hwoken).2.2.2.1
    · exact ⟨(h.unfired hunfired).1, (h.unfired hunfired).2.1, nofun⟩
    · rintro (hanswered | ⟨-, hunfired⟩)
      · exact ⟨rfl, (h.answered hanswered).2⟩
      · exact ⟨rfl, (h.unfired hunfired).1, (h.unfired hunfired).2.1⟩
  · cases hstep

theorem Course.ignore (hresult : q.client.result ≠ .waitting)
    (harming : q.place ≠ .arming) (hstoring : q.place ≠ .storing) :
    Course woken sent fired (answered ∨ sent ∧ ¬fired) q := by
  refine ⟨h.con, h.asked, h.early, h.later, h.waits, h.woken, h.sent, h.unfired, ?_⟩
  rintro (hanswered | ⟨hsent, hunfired⟩)
  · exact h.answered hanswered
  · obtain ⟨hsending, hfailed⟩ := h.sent hsent
    obtain ⟨hstarted, hstored, htimeout⟩ := h.unfired hunfired
    have hmem := (h.later hsending harming hstoring).2
    simp only [mem_cons, not_mem_nil, or_false] at hmem
    rcases hmem with hmem | hmem | hmem | hmem
    · exact absurd hmem hresult
    · exact absurd hmem htimeout
    · exact absurd hmem hfailed
    · exact ⟨hmem, hstarted, hstored⟩

theorem Course.give (hstep : q.give = some q') :
    Course woken sent fired answered q' := by
  obtain ⟨hcon, hasked, hearly, hlater, hwaits, hwoken, hsent, hunfired, hanswered⟩ := h
  unfold Request.give at hstep
  split at hstep
  · cases hstep
  · cases hstep
    refine ⟨hcon, ?_, ?_, hlater, hwaits, hwoken, hsent, hunfired, hanswered⟩
    · grind
    · grind [Request.Busy]

theorem Course.fire (hresult : q.client.result = .waitting)
    (hstep : q.fire = some q') : Course woken sent True answered q' := by
  obtain ⟨hcon, hasked, hearly, hlater, hwaits, hwoken, hsent, hunfired, hanswered⟩ := h
  unfold Request.fire at hstep
  split at hstep
  · cases hstep
    refine ⟨hcon, ?_, ?_, hlater, hwaits, hwoken, hsent, fun h => absurd trivial h, ?_⟩ <;> grind
  · cases hstep

theorem Course.store (hstep : q.store = some q') :
    Course woken sent fired answered q' := by
  cases h
  unfold Request.store at hstep
  split at hstep
  · cases hstep
    constructor
    all_goals grind [Request.Busy]
  · cases hstep

theorem Course.timeoutGive (hstep : q.timeoutGive = some q') :
    Course woken sent fired answered q' := by
  cases h
  unfold Request.timeoutGive at hstep
  split at hstep
  · cases hstep
    constructor
    all_goals grind [Request.Busy]
  · cases hstep

end

end

/-- Replies do not come before the requester has stored that it waits; the timeout callback starts
only while it waits for one. There is no other request. -/
def Timely (s : System) : Action → Prop
  | .create _ _ => False
  | .receive pdata => ∀ q ∈ s.requests, replyId pdata = some q.client.msgid → q.place ≠ .arming ∧
    q.place ≠ .storing
  | .fire r => ∀ q ∈ s.requests[r]?, q.client.result = .waitting
  | _ => True

structure Single (id : UInt8 × UInt8) (history : List (Action × Outcome)) (q : Request)
    (s : System) : Prop where
  requests : s.requests = [q]
  handle : q.Kept → ∃ rest, s.handle = some 0 :: rest
  msgid : q.client.msgid = id
  course : Course (Woken history) (Sent history) (Fired history) (Answered id history) q

section
variable {id : UInt8 × UInt8} {s : System} {q : Request}

theorem Single.get (h : Single id history q s) (hr : s.requests[r]? = some q') : r = 0 ∧
    q' = q := by
  rw [h.requests] at hr
  cases r with
  | zero => exact ⟨rfl, (some.inj hr).symm⟩
  | succ r => cases hr

theorem Single.proceed (h : Single id history q s) (hstep : s.proceed r ok = some (outcome, s')) :
    ∃ q', Single id (history ++ [(.proceed r ok, outcome)]) q' s' := by
  obtain ⟨q₁, q', hq₁, hq', rfl⟩ := proceed_inv hstep
  obtain ⟨rfl, rfl⟩ := h.get hq₁
  obtain ⟨-, hmsgid, hbefore, -⟩ := proceed_frame hq'
  refine ⟨q', ?_, fun hkept => ?_, hmsgid.trans h.msgid, ?_⟩
  · dsimp only
    rw [h.requests]
    rfl
  · dsimp only
    rw [if_neg hkept.1]
    exact h.handle (hbefore hkept)
  · refine (h.course.proceed hq').mono woken_snoc.1 sent_snoc.1
      (fun hf => fired_snoc.2 (.inl hf)) fun ha => ?_
    rcases answered_snoc.1 ha with ha | ⟨_, ha, -⟩
    · exact ha
    · cases ha

theorem woken_touch (h : Woken (history ++ [(a, s.touch records)])) : Woken history :=
  (woken_snoc.1 h).resolve_right nofun

theorem sent_touch (h : Sent (history ++ [(a, s.touch records)])) : Sent history :=
  (sent_snoc.1 h).resolve_right nofun

theorem answered_other (ha : ∀ pdata, a ≠ .receive pdata)
    (h : Answered id (history ++ [(a, outcome)])) : Answered id history := by
  rcases answered_snoc.1 h with h | ⟨pdata, h, -⟩
  · exact h
  · exact absurd h (ha pdata)

theorem answered_receive (h : Answered id (history ++ [(.receive pdata, outcome)])) :
    Answered id history ∨ Sent history ∧ ¬Fired history := by
  rcases answered_snoc.1 h with h | ⟨_, -, -, hrest⟩
  · exact .inl h
  · exact .inr hrest

theorem Single.update (h : Single id history q s)
    (hstep : s.update r f = some s') (hframe : ∀ q', f q = some q' → Frame q q')
    (hcourse : ∀ q', f q = some q' → Course (Woken history') (Sent history') (Fired history')
    (Answered id history') q') : ∃ q', Single id history' q' s' := by
  obtain ⟨q₁, q', hq₁, hq', rfl⟩ := update_inv hstep
  obtain ⟨rfl, rfl⟩ := h.get hq₁
  have hframe := hframe q' hq'
  refine ⟨q', ?_, fun hkept => h.handle (hframe.kept.1 hkept), hframe.msgid.trans h.msgid,
    hcourse q' hq'⟩
  dsimp only
  rw [h.requests]
  rfl

theorem Single.callback (h : Single id history q s)
    (hstep : s.callback r f = some (outcome, s')) (hreceive : ∀ pdata, a ≠ .receive pdata)
    (hframe : ∀ q', f q = some q' → Frame q q')
    (hcourse : ∀ q', f q = some q' → Course (Woken history) (Sent history) (Fired history)
    (Answered id history) q') : ∃ q', Single id (history ++ [(a, outcome)]) q' s' := by
  obtain ⟨rfl, hupdate⟩ := callback_inv hstep
  exact h.update hupdate hframe fun q' hq' =>
    (hcourse q' hq').mono woken_touch sent_touch (fun hf => fired_snoc.2 (.inl hf))
      (answered_other hreceive)

theorem receive_first (hrequests : s.requests = [q])
    (hhandle : s.handle = some 0 :: rest) (hid : replyId pdata = some id)
    (hawaits : q.awaits id = true) (hstep : s.receive pdata = some (outcome, s')) :
    outcome = s.touch [0] ∧ s.update 0 (Request.accept pdata) = some s' := by
  have hsearch : search s.requests id s.handle = ([0], some 0) := by
    rw [hhandle, hrequests, search]
    exact if_pos hawaits
  unfold System.receive at hstep
  rw [hid] at hstep
  dsimp only at hstep
  rw [hsearch] at hstep
  obtain ⟨s₁, hs, hstep⟩ := bind_eq_some_iff.1 hstep
  cases hstep
  exact ⟨rfl, hs⟩

theorem Single.receive (h : Single id history q s) (htimely : Timely s (.receive pdata))
    (hstep : s.receive pdata = some (outcome, s')) :
    ∃ q', Single id (history ++ [(.receive pdata, outcome)]) q' s' := by
  have hfired (hf : Fired history) : Fired (history ++ [(.receive pdata, outcome)]) :=
    fired_snoc.2 (.inl hf)
  by_cases hawaits : replyId pdata = some id ∧ q.awaits id = true
  · obtain ⟨hid, hawaits⟩ := hawaits
    have hplace := (h.course.asked (of_decide_eq_true hawaits).2).1
    obtain ⟨rest, hhandle⟩ :=
      h.handle (by rw [Request.Kept, hplace]; exact ⟨Place.noConfusion, Place.noConfusion⟩)
    obtain ⟨rfl, hupdate⟩ := receive_first h.requests hhandle hid hawaits hstep
    refine h.update hupdate (fun q' => accept_frame) fun q' hq' => ?_
    exact (h.course.accept hawaits hq').mono woken_touch sent_touch hfired answered_receive
  · obtain ⟨read, rfl, -, rfl | ⟨r, q₁, q', hq₁, hchanges, -⟩⟩ := receive_inv hstep
    · refine ⟨q, h.requests, h.handle, h.msgid, ?_⟩
      by_cases hid : replyId pdata = some id
      · have hresult : q.client.result ≠ .waitting :=
          fun hresult => hawaits ⟨hid, decide_eq_true ⟨h.msgid, hresult⟩⟩
        obtain ⟨harming, hstoring⟩ := htimely q (by rw [h.requests]; exact mem_singleton_self q)
          (hid.trans (congrArg some h.msgid.symm))
        exact (h.course.ignore hresult harming hstoring).mono woken_touch sent_touch hfired
          answered_receive
      · refine h.course.mono woken_touch sent_touch hfired fun ha => ?_
        rcases answered_snoc.1 ha with ha | ⟨_, ha, hid', -⟩
        · exact ha
        · cases ha
          exact absurd hid' hid
    · obtain ⟨-, rfl⟩ := h.get hq₁
      cases hchanges with
      | receive hid hmine _ =>
        obtain ⟨hmsgid, -⟩ := of_decide_eq_true hmine
        cases hmsgid.symm.trans h.msgid
        exact absurd ⟨hid, hmine⟩ hawaits

theorem Single.step (h : Single id history q s) (htimely : Timely s a)
    (hstep : step s a = some (outcome, s')) :
    ∃ q', Single id (history ++ [(a, outcome)]) q' s' := by
  cases a with
  | create msgid type => exact htimely.elim
  | proceed r ok => exact h.proceed hstep
  | receive pdata => exact h.receive htimely hstep
  | give r =>
    exact h.callback hstep nofun (fun q' hq' => (give_frame hq').2) fun q' => h.course.give
  | fire r =>
    obtain ⟨s₁, hupdate, hstep⟩ := bind_eq_some_iff.1 hstep
    cases hstep
    obtain ⟨q₁, _, hq₁, -, -⟩ := update_inv hupdate
    obtain ⟨rfl, rfl⟩ := h.get hq₁
    refine h.update hupdate (fun q' => fire_frame) fun q' hq' => ?_
    refine (h.course.fire (htimely q₁ hq₁) hq').mono (fun hw => ?_) (fun hs => ?_)
      (fun _ => fired_snoc.2 (.inr rfl)) (answered_other nofun)
    · exact (woken_snoc.1 hw).resolve_right nofun
    · exact (sent_snoc.1 hs).resolve_right nofun
  | store r =>
    exact h.callback hstep nofun (fun q' hq' => (store_frame hq').2) fun q' => h.course.store
  | timeoutGive r =>
    exact h.callback hstep nofun (fun q' hq' => (timeoutGive_frame hq').2)
      fun q' => h.course.timeoutGive

theorem single_create (hstep : (System.init num).create id .con = some s) :
    ∃ q, Single id [] q s := by
  obtain ⟨i, hi, hstep⟩ := bind_eq_some_iff.1 hstep
  cases hstep
  refine ⟨coapClientCreate id .con i, rfl, fun _ => ?_, rfl, ?_⟩
  · cases num with
    | zero => cases hi
    | succ num =>
      cases hi
      exact ⟨_, rfl⟩
  · refine ⟨rfl, nofun, fun _ => ⟨rfl, rfl, ?_⟩, fun h => absurd rfl h, nofun,
      fun h => by simp [Woken] at h, fun h => by simp [Sent] at h,
      fun _ => ⟨nofun, nofun, nofun⟩, fun h => by simp [Answered] at h⟩
    simp [Request.Busy, coapClientCreate]

end

/-- A reply that comes after the message was sent and before the timeout callback starts makes the
request a success: from the moment the requester leaves its wait until its record is deleted the
result says so. Without a reply the result is a success or a timeout. -/
theorem request_succeeds {num : Nat} {id : UInt8 × UInt8} {s₀ s : System}
    {history : List (Action × Outcome)}
    (hcreate : (System.init num).create id .con = some s₀) (hrun : Run step Timely s₀ history s)
    (hwoken : Woken history) :
    ∃ q, s.requests = [q] ∧ (q.client.result = .success ∨ q.client.result = .timeout) ∧
      (Answered id history → q.client.result = .success) := by
  have hsingle : ∃ q, Single id history q s := by
    refine Run.invariant (fun history s => ∃ q, Single id history q s)
      (single_create hcreate) ?_ hrun
    rintro history s a outcome s' ⟨q, hq⟩ htimely hstep
    exact hq.step htimely hstep
  obtain ⟨q, hq⟩ := hsingle
  obtain ⟨hsending, harming, hstoring, hwaiting, hfailed⟩ := hq.course.woken hwoken
  have hmem := (hq.course.later hsending harming hstoring).2
  simp only [mem_cons, not_mem_nil, or_false] at hmem
  refine ⟨q, hq.requests, ?_, fun ha => (hq.course.answered ha).1⟩
  rcases hmem with hmem | hmem | hmem | hmem
  · exact absurd (hq.course.asked hmem).1 hwaiting
  · exact .inr hmem
  · exact absurd hmem hfailed
  · exact .inl hmem

instance (s : System) (a : Action) : Decidable (Timely s a) := by
  rcases a with _ | _ <;> dsimp only [Timely] <;> infer_instance

def asked : System := ⟨[coapClientCreate (1, 2) .con 0], [some 0]⟩

def RepliedAt (i : Nat) (history : List (Action × Outcome)) : Prop :=
  history[i]?.map Prod.fst = some (.receive ackData) ∧ Sent (history.take i) ∧
    ¬Fired (history.take i)
  deriving Decidable

theorem RepliedAt.answered (h : RepliedAt i history) : Answered (1, 2) history := by
  obtain ⟨hi, hsent, hfired⟩ := h
  obtain ⟨⟨a, outcome⟩, hi, rfl⟩ := map_eq_some_iff.1 hi
  obtain ⟨hlt, hget⟩ := List.getElem?_eq_some_iff.1 hi
  refine ⟨history.take i, ackData, outcome, history.drop (i + 1), ?_, by decide +kernel, hsent,
    hfired⟩
  simp [← hget]

theorem request_succeeds_replied : ∃ history s q, Run step Timely asked history s ∧ Woken history ∧
    Answered (1, 2) history ∧ s.requests = [q] ∧ q.client.result = .success := by
  obtain ⟨history, s, he, hwoken, hreplied⟩ := exists_of_exec step Timely asked
    (replicate 3 (.proceed 0 true) ++ [.receive ackData, .give 0] ++ ending)
    (fun history _ => Woken history ∧ RepliedAt 3 history) (by decide +kernel)
  obtain ⟨q, hq, -, hsuccess⟩ := @request_succeeds 1 (1, 2) _ _ _ (by decide +kernel)
    (.of_exec he) hwoken
  exact ⟨history, s, q, .of_exec he, hwoken, hreplied.answered, hq, hsuccess hreplied.answered⟩

/-- A reply that comes before the requester has stored that it waits is dropped, and the request
times out. -/
theorem early_reply_is_lost : ∃ history s q, Run step (fun _ _ => True) asked history s ∧
    Woken history ∧ Answered (1, 2) history ∧ s.requests = [q] ∧ q.client.result = .timeout := by
  obtain ⟨history, s, he, hwoken, hreplied, hresult⟩ := exists_of_exec step (fun _ _ => True) asked
    [.proceed 0 true, .receive ackData, .proceed 0 true, .proceed 0 true, .fire 0, .store 0,
      .timeoutGive 0, .proceed 0 true]
    (fun history s => Woken history ∧ RepliedAt 1 history ∧
      s.requests.map (fun q => q.client.result) = [.timeout])
    (by decide +kernel)
  obtain ⟨q, hq, hresult⟩ := map_eq_singleton_iff.1 hresult
  exact ⟨history, s, q, .of_exec he, hwoken, hreplied.answered, hq, hresult⟩

end SwApi.CoapClient
