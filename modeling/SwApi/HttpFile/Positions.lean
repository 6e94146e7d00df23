import SwApi.HttpFile.Connect
import SwApi.Library.Transition

/-! A read delivers the bytes of the content at the position that `sw_httpfile_tell` reports, as
long as the answers to the seeks bring what was asked for, or nothing. -/
namespace SwApi.HttpFile
open Library
open Url (SwUrl Net)

/-- A call on a file; the answer is the one that the request of a seek gets. -/
inductive Call where
  | read (size : Int)
  | seek (offset origin : Int) (answer : Answer)

inductive Outcome where
  | data (pos : Int) (bytes : Bytes)
  | done (ok : Bool)
deriving DecidableEq

def step (net : Net) (http : SwHttpfile) : Call → Option (Outcome × SwHttpfile)
  | .read size =>
      match swHttpfileRead http size with
      | .ok (bytes, http') => some (.data (swHttpfileTell http) bytes, http')
      | .error .failed => some (.done false, http)
      | .error .undefined => none
  | .seek offset origin answer =>
      match swHttpfileSeek net http offset origin [answer] with
      | .ok (ok, http') => some (.done ok, http')
      | .error .failed => some (.done false, http)
      | .error .undefined => none

section
variable (serves : Bytes → Nat → Answer → Prop) (net : Net) (content : Bytes)

def OpenedWhole (http : SwHttpfile) : Prop :=
  ∃ (url : SwUrl) (startPos endPos : Int) (answer : Answer), 0 ≤ startPos ∧ startPos < 2 ^ 63 ∧
    endPos ≤ 0 ∧
    serves content startPos.toNat answer ∧ httpfileOpen net url startPos endPos [answer] = .ok http

/-- A seek computes its position without an overflow, and the server answers for this position. -/
def Asks (http : SwHttpfile) : Call → Prop
  | .read _ => True
  | .seek offset origin answer => offset < 2 ^ 63 ∧
      ∃ target, seekTarget http offset origin = .ok target ∧
        ∀ pos ∈ target, serves content pos.toNat answer

def Right : Outcome → Prop
  | .data pos bytes => ∀ i b, bytes[i]? = some b → 0 ≤ pos ∧ content[pos.toNat + i]? = some b
  | .done _ => True

end

/-- What is still to be delivered is the content from `curr_pos` on, or the file is at its end. -/
structure Synced (c : Bytes) (http : SwHttpfile) : Prop where
  ready : http.Ready
  whole : http.bchunk = false
  noSection : http.endPos ≤ 0
  running : http.bShutdown = false
  low : 0 ≤ http.currPos
  place : http.stream <+: c.drop http.currPos.toNat ∨ 0 < http.filesize ∧
    http.filesize ≤ http.currPos

theorem seekTarget_bounds (hoffset : offset < 2 ^ 63)
    (h : seekTarget http offset origin = .ok (some pos)) : 0 ≤ pos ∧ pos < 2 ^ 63 := by
  have hint {x : Int} (hx : (int64 x >>= fun y => .ok (some (max y 0))) =
    (.ok (some pos) : Attempt (Option Int))) : 0 ≤ pos ∧ pos < 2 ^ 63 := by
    obtain ⟨y, hy, hpos⟩ := bind_eq_ok.1 hx
    cases hpos
    rw [int64] at hy
    split at hy
    · cases hy
      omega
    · cases hy
  unfold seekTarget at h
  split at h
  · cases h
    omega
  · split at h
    · exact hint h
    · split at h
      · exact hint h
      · cases h

theorem Synced.deliver (h : Synced c http) (hplace : http.stream <+: c.drop http.currPos.toNat)
    (htook : Took http r http') (error : Bool) :
    Synced c { http' with recvError := error, currPos := http'.currPos + r.length } ∧
    r <+: c.drop http.currPos.toNat := by
  obtain ⟨rest, hrest⟩ := hplace
  rw [htook.stream, List.append_assoc] at hrest
  have hpos : http'.currPos = http.currPos := by rw [htook.frame]
  have hlow := h.low
  refine ⟨⟨⟨htook.ready.size, htook.ready.fits⟩, ?_, ?_, ?_, ?_, .inl ⟨rest, ?_⟩⟩, ⟨_, hrest⟩⟩
  · rw [htook.frame]
    exact h.whole
  · rw [htook.frame]
    exact h.noSection
  · rw [htook.frame]
    exact h.running
  · dsimp only
    omega
  · dsimp only
    rw [hpos, show (http.currPos + r.length).toNat = http.currPos.toNat + r.length by omega,
      ← List.drop_drop, ← hrest, List.drop_left]
    rfl

theorem read_synced (h : Synced c http) : swHttpfileRead http size = .error .failed ∨
    ∃ r http', swHttpfileRead http size = .ok (r, http') ∧ Synced c http' ∧
    r <+: c.drop http.currPos.toNat := by
  unfold swHttpfileRead
  split
  · exact .inl rfl
  · split
    · exact .inr ⟨_, _, rfl, h, List.nil_prefix⟩
    · rename_i hsize hsome
      right
      rw [h.whole, if_neg Bool.false_ne_true, if_pos h.noSection, wholeRead]
      split
      · refine ⟨_, _, rfl, ?_, List.nil_prefix⟩
        rw [List.length_nil, Int.natCast_zero, Int.add_zero]
        exact h
      · rename_i hend
        have hplace := h.place.resolve_right hend
        generalize hn : (if 0 < http.filesize ∧
          http.filesize < http.currPos + size then http.filesize - http.currPos else size) = nsize
        have hnsize : 0 ≤ nsize := by
          rw [← hn]
          split <;> omega
        obtain ⟨r, http', hread, htook, -⟩ :=
          readFileData_took h.ready hnsize (if 0 < http.filesize then 0 else 3)
        dsimp only
        rw [hread]
        exact ⟨_, _, rfl, h.deliver hplace htook _⟩

variable (net) in
theorem connect_synced (hready : http.Ready) (hshut : http.bShutdown = false)
    (hsection : http.endPos ≤ 0) (hc : c.length < 2 ^ 63) (hpos : pos < 2 ^ 63)
    (h : Sound c pos answer) :
    (∃ http', connect net http pos [answer] = .ok (true, http') ∧ Kept http http' ∧
      Synced c { http' with currPos := pos }) ∨
    ∃ client, connect net http pos [answer] = .ok (false, http.restart.request client) ∧
      client.elim [] Line.bytes = [] := by
  obtain hmute | ⟨r, l, rfl, hstatus, htrue, harrives, hbytes⟩ := h.mute_or
  · exact .inr (connect_mute net pos hmute)
  · left
    obtain ⟨http', hconnect, hkept, hready', hstream⟩ :=
      connect_answered net hready.size hshut hc hpos hstatus htrue harrives hbytes
    refine ⟨http', hconnect, hkept, ⟨hready'.size, hready'.fits⟩, hkept.bchunk, ?_, ?_,
      Int.natCast_nonneg _, .inl ?_⟩
    · exact hkept.endPos.trans_le hsection
    · exact hkept.bShutdown.trans hshut
    · exact hstream ▸ List.prefix_rfl

theorem Synced.request (h : Synced c http) (hclient : client.elim [] Line.bytes = []) :
    Synced c (http.restart.request client) := by
  refine ⟨⟨h.ready.size, h.ready.fits⟩, rfl, h.noSection, h.running, h.low,
    h.place.imp_left fun hplace => ?_⟩
  have hstream : (http.restart.request client).stream = http.tmp := by
    rw [SwHttpfile.stream]
    exact (congrArg (http.tmp ++ ·) hclient).trans (List.append_nil _)
  rw [hstream]
  exact (List.prefix_append _ _).trans hplace

variable (net) in
theorem seek_synced (h : Synced c http) (hc : c.length < 2 ^ 63)
    (hasks : Asks Sound c http (.seek offset origin answer)) :
    ∃ ok http', swHttpfileSeek net http offset origin [answer] = .ok (ok, http') ∧
    Synced c http' := by
  obtain ⟨hoffset, target, htarget, hserves⟩ := hasks
  unfold swHttpfileSeek
  split
  · exact ⟨_, _, rfl, h⟩
  · rename_i hfile
    rw [htarget, ok_bind]
    cases target with
    | none => exact ⟨_, _, rfl, h⟩
    | some pos =>
      obtain ⟨hlow, hhigh⟩ := seekTarget_bounds hoffset htarget
      dsimp only
      split
      · rename_i hend
        refine ⟨_, _, rfl, ⟨h.ready.size, h.ready.fits⟩, h.whole, h.noSection, h.running, hlow,
          .inr ?_⟩
        have := h.noSection
        dsimp only
        omega
      · have hcast : (pos.toNat : Int) = pos := Int.toNat_of_nonneg hlow
        obtain ⟨http', hconnect, -, hsynced⟩ | ⟨client, hconnect, hclient⟩ :=
          connect_synced net h.ready h.running h.noSection hc (by omega) (hserves pos rfl)
        · rw [← hcast, hconnect]
          exact ⟨_, _, rfl, hsynced⟩
        · rw [← hcast, hconnect]
          exact ⟨_, _, rfl, h.request hclient⟩

variable (net) in
theorem step_synced (h : Synced c http) (hc : c.length < 2 ^ 63) (hasks : Asks Sound c http call) :
    ∃ outcome http', step net http call = some (outcome, http') ∧ Synced c http' ∧
    Right c outcome := by
  cases call with
  | read size =>
    rcases read_synced h with hread | ⟨r, http', hread, hsynced, rest, hrest⟩
    · refine ⟨.done false, http, ?_, h, trivial⟩
      rw [step, hread]
    · refine ⟨.data http.currPos r, http', ?_, hsynced, fun i b hb => ⟨h.low, ?_⟩⟩
      · rw [step, hread]
        rfl
      · rw [← List.getElem?_drop, ← hrest]
        exact List.getElem?_append_left (List.getElem?_eq_some_iff.1 hb).1 ▸ hb
  | seek offset origin answer =>
    obtain ⟨ok, http', hseek, hsynced⟩ := seek_synced net h hc hasks
    refine ⟨.done ok, http', ?_, hsynced, trivial⟩
    rw [step, hseek]

theorem open_synced (hopen : OpenedWhole Sound net c http) (hc : c.length < 2 ^ 63) :
    Synced c http := by
  obtain ⟨url, startPos, endPos, answer, hlow, hhigh, hsection, hsound, hopen⟩ := hopen
  have hcast : (startPos.toNat : Int) = startPos := Int.toNat_of_nonneg hlow
  unfold httpfileOpen at hopen
  generalize hfresh : SwHttpfile.mk none url 0 0 startPos endPos false 0 0 false false false 0
    (List.replicate maxPacketSize 0) false = fresh at hopen
  dsimp only at hopen
  have hready : fresh.Ready := by
    rw [← hfresh]
    exact ⟨List.length_replicate, Nat.zero_le _⟩
  have hshut : fresh.bShutdown = false := by rw [← hfresh]
  have hend : fresh.endPos ≤ 0 := by rwa [← hfresh]
  obtain ⟨http', hconnect, hkept, hsynced⟩ | ⟨client, hconnect, -⟩ :=
    connect_synced net hready hshut hend hc (by omega) hsound
  · rw [hcast] at hconnect hsynced
    rw [hconnect] at hopen
    cases hopen
    have hstart : startPos = http'.startPos := by rw [hkept.startPos, ← hfresh]
    rw [hstart] at hsynced
    exact hsynced
  · rw [hcast] at hconnect
    rw [hconnect] at hopen
    cases hopen

/-- Where every answer brings what was asked for, or nothing, every run of reads and seeks delivers
the bytes of the content, and every further call is defined. -/
theorem reads_content {net : Net} {c : Bytes} {http http' : SwHttpfile}
    {history : List (Call × Outcome)}
    (hc : c.length < 2 ^ 63) (hopen : OpenedWhole Sound net c http)
    (hrun : Run (step net) (Asks Sound c) http history http') :
    (∀ x ∈ history, Right c x.2) ∧ ∀ call, Asks Sound c http' call →
    (step net http' call).isSome := by
  have hinv : Synced c http' ∧ ∀ x ∈ history, Right c x.2 := by
    refine Run.invariant (fun history http => Synced c http ∧ ∀ x ∈ history, Right c x.2)
      ⟨open_synced hopen hc, ?_⟩ ?_ hrun
    · exact List.forall_mem_nil _
    · intro history http call outcome http' hinv hasks hstep
      obtain ⟨outcome', http'', hstep', hsynced, hright⟩ := step_synced net hinv.1 hc hasks
      cases hstep'.symm.trans hstep
      exact ⟨hsynced, List.forall_mem_append.2 ⟨hinv.2, List.forall_mem_singleton.2 hright⟩⟩
  refine ⟨hinv.2, fun call hasks => ?_⟩
  obtain ⟨outcome, http'', hstep, -, -⟩ := step_synced net hinv.1 hc hasks
  rw [hstep]
  rfl

def silentNet : Net where
  gethostbyname2 _ := 0
  inetAddr _ := 0
  inetPton _ := none

def lengthReply (status : Nat) (length : Bytes) (hstatus : 100 ≤ status ∧ status < 1000)
    (hlength : Url.Free length [0, 13, 10]) : Reply where
  version := [49, 46, 49]
  status := status
  reason := [79, 75]
  fields := [(contentLength.dropLast, 32 :: length)]
  version_ok := by simp [isDigit]
  status_ok := hstatus
  reason_free := by simp [Url.Free]
  names_free := by simp [Url.Free, contentLength]
  values_free := by simpa using hlength.cons (c := 32) (by decide)

theorem lengthReply_truthful (h : length = decimal (c.length - pos)) :
    Truthful (lengthReply status length hstatus hlength) c pos := by
  have hrange : ¬SameName contentLength.dropLast contentRange.dropLast := by
    unfold SameName
    decide
  have hencoding : ¬SameName contentLength.dropLast transferEncoding.dropLast := by
    unfold SameName
    decide
  refine ⟨?_, ?_, ?_⟩
  · intro f hf _
    cases List.mem_singleton.1 hf
    have hblank := digits_blank (fun d hd => isDigit_of_mem_decimal hd)
      (decimal_ne_nil (c.length - pos)) []
    rw [List.append_nil, ← h] at hblank
    rw [← h]
    exact hblank
  · intro f hf hname
    cases List.mem_singleton.1 hf
    exact absurd hname hrange
  · intro f hf hname
    cases List.mem_singleton.1 hf
    exact hencoding hname

def reply200 : Reply := lengthReply 200 [51] (by decide) (by simp [Url.Free])

def reply206 : Reply := lengthReply 206 [50] (by decide) (by simp [Url.Free])

def abcUrl : SwUrl := ⟨[], [], [], [], true, false, 0, [], 0, [], [], [], []⟩

def abcAnswer : Answer := .sent ⟨reply200.text ++ [97, 98, 99], []⟩

def bcAnswer : Answer := .sent ⟨reply206.text ++ [98, 99], []⟩

def seekAndRead (answer : Answer) : Option (Outcome × Outcome) := do
  let http ← (httpfileOpen silentNet abcUrl 0 0 [abcAnswer]).toOption
  let (sought, http) ← step silentNet http (.seek 1 0 answer)
  let (got, _) ← step silentNet http (.read 2)
  some (sought, got)

theorem seekAndRead_run
    (hopened : serves c 0 abcAnswer) (hserves : serves c 1 answer)
    (h : seekAndRead answer = some (sought, got)) :
    ∃ http http', OpenedWhole serves silentNet c http ∧
      Run (step silentNet) (Asks serves c) http [(.seek 1 0 answer, sought),
      (.read 2, got)] http' := by
  unfold seekAndRead at h
  obtain ⟨http, hopen, h⟩ := Option.bind_eq_some_iff.1 h
  obtain ⟨⟨sought', http₁⟩, hseek, h⟩ := Option.bind_eq_some_iff.1 h
  obtain ⟨⟨got', http₂⟩, hread, h⟩ := Option.bind_eq_some_iff.1 h
  cases h
  refine ⟨http, http₂, ⟨abcUrl, 0, 0, abcAnswer, le_rfl, by decide, le_rfl, hopened, ?_⟩, ?_⟩
  · generalize httpfileOpen silentNet abcUrl 0 0 [abcAnswer] = opened at hopen ⊢
    cases opened with
    | error e => cases hopen
    | ok http => exact congrArg _ (Option.some.inj hopen)
  · refine .next (.next .start ⟨by decide, some 1, rfl, ?_⟩ hseek) trivial hread
    rintro pos ⟨⟩
    exact hserves

theorem arrives_at_once (h : r.text.length < maxPacketSize) : Arrives r ⟨s, []⟩ :=
  ⟨h, by simp, by simp⟩

/-- A seek that is answered with the rest of the file. -/
theorem reads_content_after_seek : ∃ http http', Run (step silentNet) (Asks Sound [97, 98, 99]) http
      [(.seek 1 0 bcAnswer, .done true), (.read 2, .data 1 [98, 99])] http' ∧
    (∀ x ∈ [(Call.seek 1 0 bcAnswer, Outcome.done true), (.read 2, .data 1 [98, 99])],
    Right [97, 98, 99] x.2) ∧
    ∀ call, Asks Sound [97, 98, 99] http' call → (step silentNet http' call).isSome := by
  have hopened : Sound [97, 98, 99] 0 abcAnswer :=
    .answered (.inr ⟨rfl, rfl⟩) (lengthReply_truthful rfl) (arrives_at_once (by decide)) rfl
  have hserves : Sound [97, 98, 99] 1 bcAnswer :=
    .answered (.inl rfl) (lengthReply_truthful rfl) (arrives_at_once (by decide)) rfl
  have hrun : seekAndRead bcAnswer = some (.done true, .data 1 [98, 99]) := by decide +kernel
  obtain ⟨http, http', hopen, hrun⟩ := seekAndRead_run hopened hserves hrun
  exact ⟨http, http', hrun, reads_content (by decide) hopen hrun⟩

/-- A server that ignores the range answers a seek with the whole content, and the read after it
delivers the bytes at the front. -/
theorem ignored_range_is_not_noticed : ∃ http http' history,
    OpenedWhole Served silentNet [97, 98, 99] http ∧
    Run (step silentNet) (Asks Served [97, 98, 99]) http history http' ∧
    ¬∀ x ∈ history, Right [97, 98, 99] x.2 := by
  have hopened (pos : Nat) : Served [97, 98, 99] pos abcAnswer :=
    .whole rfl (lengthReply_truthful rfl) rfl
  have hrun : seekAndRead abcAnswer = some (.done true, .data 1 [97, 98]) := by decide +kernel
  obtain ⟨http, http', hopen, hrun⟩ := seekAndRead_run (hopened 0) (hopened 1) hrun
  refine ⟨http, http', _, hopen, hrun, fun hright => ?_⟩
  have hfirst := hright (.read 2, .data 1 [97, 98]) (.tail _ (.head _)) 0 97 rfl
  exact absurd hfirst.2 (by decide)

end SwApi.HttpFile
