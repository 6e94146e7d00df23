import SwApi.Dns.Names

/-! Which responses `parse_dns_response` reads and stores inside of its buffers. -/
namespace SwApi.Dns
open Library Trace

def shortAt (buf : Memory) (i : Nat) : Nat := (buf i).toNat <<< 8 ||| (buf (i + 1)).toNat

@[simp] theorem loadByte_result : (loadByte buf i).result = some (buf i) := rfl

theorem loadByte_all : (loadByte buf i).All (Event.Inside size hostentLen) ↔ i + 1 ≤ size := by
  simp [loadByte, all_bind, Event.Inside]

@[simp] theorem loadShort_result (buf : Memory) (i : Nat) :
    (loadShort buf i).result = some (shortAt buf i) := rfl

theorem loadShort_all : (loadShort buf i).All (Event.Inside size hostentLen) ↔ i + 2 ≤ size := by
  simp only [loadShort, all_bind, loadByte_all, all_pure, implies_true, and_true, loadByte_result,
    Option.some.injEq, forall_eq']
  omega

theorem loadShort_bind_all : (loadShort buf i >>= f).All (Event.Inside size hostentLen) ↔
      i + 2 ≤ size ∧ (f (shortAt buf i)).All (Event.Inside size hostentLen) := by
  rw [all_bind_of_some (loadShort_result buf i), loadShort_all]

def Alias.Inside (buf : Memory) (size : Nat) (c : Alias) : Prop :=
  c.i < size → buf c.i ≠ 0 →
    if isPointer (buf c.i) then c.i + 2 ≤ size
    else c.i + 1 + (buf c.i).toNat ≤ size ∧ c.retAlias.length + c.dot.length + (buf c.i).toNat ≤
      szNameSize

/-- Every label and pointer that the name at a position leads to is in the response, and the text
has less than 512 bytes when the name ends. -/
structure NameInside (buf : Memory) (size pos : Nat) : Prop where
  rounds : ∀ k c, after (Alias.next buf size) k (Alias.start pos) = some c → c.Inside buf size
  text : ∀ name n, Spells buf size pos name n → name.length < szNameSize

theorem aliasRound_all :
    (aliasRound buf size c).All (Event.Inside size hostentLen) ↔ c.Inside buf size := by
  unfold aliasRound Alias.Inside
  by_cases hlt : c.i < size
  · rw [if_pos hlt, all_bind, loadByte_all]
    simp only [loadByte_result, Option.some.injEq, forall_eq']
    by_cases hzero : buf c.i = 0
    · rw [if_pos hzero]
      exact ⟨fun _ _ hne => absurd hzero hne, fun _ => ⟨hlt, all_pure _⟩⟩
    · rw [if_neg hzero]
      by_cases hpointer : isPointer (buf c.i) = true
      · rw [if_pos hpointer, if_pos hpointer, all_bind, loadByte_all]
        exact ⟨fun h _ _ => h.2.1, fun h => ⟨hlt, h hlt hzero, fun _ _ => all_pure _⟩⟩
      · rw [if_neg hpointer, if_neg hpointer]
        simp only [all_emit_bind, Event.Inside, all_pure, and_true]
        constructor
        · rintro ⟨-, -, hload, hstore⟩ _ _
          exact ⟨hload, hstore⟩
        · intro h
          obtain ⟨hload, hstore⟩ := h hlt hzero
          exact ⟨hlt, by omega, hload, hstore⟩
  · rw [if_neg hlt]
    exact ⟨fun _ h => absurd h hlt, fun _ => all_pure _⟩

theorem aliasLoop_grows (buf : Memory) (size : Nat) (c : Alias) :
    Grows fun fuel => aliasLoop buf size fuel c := by
  have hstep : ∀ m n, m ≤ n → ∀ c, (aliasLoop buf size m c).events <+:
    (aliasLoop buf size n c).events ∧
      ∀ d, (aliasLoop buf size m c).result = some d →
        aliasLoop buf size n c = aliasLoop buf size m c := by
    intro m
    induction m with
    | zero => exact fun n _ c => ⟨List.nil_prefix, fun d h => by cases h⟩
    | succ m ih =>
      intro n hle c
      obtain ⟨n, rfl⟩ : ∃ k, n = k + 1 := ⟨n - 1, by omega⟩
      rw [aliasLoop, aliasLoop, bind_of_some (aliasRound_result buf size c),
        bind_of_some (aliasRound_result buf size c)]
      cases c.next buf size with
      | none => exact ⟨List.prefix_rfl, fun _ _ => rfl⟩
      | some c' =>
        obtain ⟨hevents, hresult⟩ := ih n (Nat.le_of_succ_le_succ hle) c'
        refine ⟨(List.prefix_append_right_inj _).2 hevents, ?_⟩
        intro d hd
        have heq := hresult d hd
        show (⟨_ ++ (aliasLoop buf size n c').events, (aliasLoop buf size n c').result⟩ : Trace
          Event Alias) = _
        rw [heq]
        rfl
  exact ⟨fun m n hle => (hstep m n hle c).1, fun m n d hle => (hstep m n hle c).2 d⟩

theorem aliasLoop_always (c : Alias) :
    Always (Event.Inside size hostentLen) (fun fuel => aliasLoop buf size fuel c) ↔
      ∀ k d, after (Alias.next buf size) k c = some d → d.Inside buf size := by
  constructor
  · intro h k
    induction k generalizing c with
    | zero =>
      intro d hd
      cases hd
      have hround := ((all_bind _ _).1 (h 1)).1
      exact aliasRound_all.1 hround
    | succ k ih =>
      intro d hd
      rw [after] at hd
      obtain ⟨c', hnext, hd⟩ := Option.bind_eq_some_iff.1 hd
      refine ih c' ?_ d hd
      intro fuel
      have hround : (aliasRound buf size c).result = some (true, c') := by
        rw [aliasRound_result, hnext]
        rfl
      exact ((all_bind _ _).1 (h (fuel + 1))).2 (true, c') hround
  · intro h fuel
    induction fuel generalizing c with
    | zero => exact all_stuck
    | succ fuel ih =>
      show (aliasLoop buf size (fuel + 1) c).All _
      rw [aliasLoop, all_bind]
      refine ⟨aliasRound_all.2 (h 0 c rfl), ?_⟩
      intro r hr
      rw [aliasRound_result] at hr
      cases hnext : c.next buf size with
      | none =>
        rw [hnext] at hr
        cases hr
        exact all_pure _
      | some c' =>
        rw [hnext] at hr
        cases hr
        apply ih
        intro k d hd
        exact h (k + 1) d (by rw [after, hnext]; exact hd)

theorem aliasLoop_yields : Yields (fun fuel => aliasLoop buf size fuel c) d ↔
      ∃ b, Ends (Alias.next buf size) c b ∧ b.leave size = d := by
  constructor
  · rintro ⟨fuel, h⟩
    obtain ⟨k, b, -, hk, hb, hd⟩ := aliasLoop_result.1 h
    exact ⟨b, ⟨k, hk, hb⟩, hd⟩
  · rintro ⟨b, ⟨k, hk, hb⟩, hd⟩
    exact ⟨k + 1, aliasLoop_result.2 ⟨k, b, Nat.lt_succ_self k, hk, hb, hd⟩⟩

theorem parseAlias_grows (buf : Memory) (size pos : Nat) :
    Grows fun fuel => parseAlias fuel buf size pos :=
  (aliasLoop_grows buf size _).bind fun _ => .const _

theorem parseAlias_yields :
    Yields (fun fuel => parseAlias fuel buf size pos) (n, name) ↔ Spells buf size pos name n := by
  constructor
  · rintro ⟨fuel, h⟩
    exact parseAlias_result_inv h
  · intro h
    obtain ⟨enough, henough⟩ := h.result
    exact ⟨enough, henough enough (Nat.le_refl _)⟩

theorem parseAlias_always :
    Always (Event.Inside size hostentLen) (fun fuel => parseAlias fuel buf size pos) ↔
      NameInside buf size pos := by
  have hbind := always_bind (P := Event.Inside size hostentLen)
    (aliasLoop_grows buf size (Alias.start pos)) (f := fun _ c => do
      .emit (.storeName c.retAlias.length 1)
      pure (c.len, c.retAlias)) fun _ => .const _
  refine hbind.trans ?_
  rw [aliasLoop_always]
  constructor
  · rintro ⟨hrounds, htext⟩
    refine ⟨hrounds, ?_⟩
    rintro name n ⟨b, hb, rfl, -⟩
    have hstore := ((all_bind _ _).1 (htext _ (aliasLoop_yields.2 ⟨b, hb, rfl⟩) 0)).1
    exact (all_emit (Event.storeName _ 1)).1 hstore
  · rintro ⟨hrounds, htext⟩
    refine ⟨hrounds, ?_⟩
    intro d hd
    obtain ⟨b, hb, rfl⟩ := aliasLoop_yields.1 hd
    intro fuel
    rw [all_bind, all_emit]
    exact ⟨htext _ _ ⟨b, hb, rfl, rfl⟩, fun _ _ => all_pure _⟩

def answerAt (buf : Memory) (pos n : Nat) (name : Bytes) : Answer where
  n := n + 10 + shortAt buf (pos + n + 8)
  name := name
  addrtype := shortAt buf (pos + n)
  addr := if shortAt buf (pos + n) = 1 then slice buf (pos + n + 10) (shortAt buf (pos + n + 8))
    else []

structure RecordInside (buf : Memory) (size pos n : Nat) : Prop where
  fields : pos + n + 10 ≤ size
  data : shortAt buf (pos + n) = 1 →
    pos + n + 10 + shortAt buf (pos + n + 8) ≤ size ∧ shortAt buf (pos + n + 8) ≤ szAddrSize

def answerFields (buf : Memory) (pos : Nat) (r : Nat × Bytes) : Trace Event Answer := do
  let nType ← loadShort buf (pos + r.1)
  let _ ← loadShort buf (pos + r.1 + 2)
  .emit (.load (pos + r.1 + 4) 4)
  let nDataLen ← loadShort buf (pos + r.1 + 8)
  if nType = 1 then do
    .emit (.load (pos + r.1 + 10) nDataLen)
    .emit (.storeAddr nDataLen)
    pure ⟨r.1 + 10 + nDataLen, r.2, nType, slice buf (pos + r.1 + 10) nDataLen⟩
  else pure ⟨r.1 + 10 + nDataLen, r.2, nType, []⟩

theorem answerFields_result : (answerFields buf pos r).result =
    some (answerAt buf pos r.1 r.2) := by
  simp only [answerFields, result_bind, loadShort_result, Option.bind_some, result_emit]
  unfold answerAt
  split <;> rfl

theorem answerFields_all :
    (answerFields buf pos r).All (Event.Inside size hostentLen) ↔
    RecordInside buf size pos r.1 := by
  simp only [answerFields, loadShort_bind_all, all_emit_bind, Event.Inside]
  by_cases htype : shortAt buf (pos + r.1) = 1
  · rw [if_pos htype]
    simp only [all_emit_bind, Event.Inside, all_pure, and_true]
    constructor
    · rintro ⟨-, -, -, hfields, hload, hstore⟩
      exact ⟨by omega, fun _ => ⟨hload, hstore⟩⟩
    · rintro ⟨hfields, hdata⟩
      obtain ⟨hload, hstore⟩ := hdata htype
      exact ⟨by omega, by omega, by omega, by omega, hload, hstore⟩
  · rw [if_neg htype]
    constructor
    · rintro ⟨-, -, -, hfields, -⟩
      exact ⟨by omega, fun h => absurd h htype⟩
    · rintro ⟨hfields, -⟩
      exact ⟨by omega, by omega, by omega, by omega, all_pure _⟩

theorem parseAnswer_grows (buf : Memory) (size pos : Nat) :
    Grows fun fuel => parseAnswer fuel buf size pos :=
  (parseAlias_grows buf size pos).bind fun _ => .const _

theorem parseAnswer_yields : Yields (fun fuel => parseAnswer fuel buf size pos) answer ↔
      ∃ name n, Spells buf size pos name n ∧ answerAt buf pos n name = answer := by
  have hbind := yields_bind (parseAlias_grows buf size pos) (f := fun _ => answerFields buf pos)
    (fun _ => .const _) answer
  refine hbind.trans ?_
  constructor
  · rintro ⟨⟨n, name⟩, hname, hfields⟩
    rw [yields_const, answerFields_result] at hfields
    exact ⟨name, n, parseAlias_yields.1 hname, Option.some.inj hfields⟩
  · rintro ⟨name, n, hname, rfl⟩
    exact ⟨(n, name), parseAlias_yields.2 hname, (yields_const _ _).2 answerFields_result⟩

theorem parseAnswer_always :
    Always (Event.Inside size hostentLen) (fun fuel => parseAnswer fuel buf size pos) ↔
      NameInside buf size pos ∧ ∀ name n, Spells buf size pos name n →
      RecordInside buf size pos n := by
  have hbind := always_bind (P := Event.Inside size hostentLen) (parseAlias_grows buf size pos)
    (f := fun _ => answerFields buf pos) fun _ => .const _
  refine hbind.trans ?_
  rw [parseAlias_always]
  refine and_congr_right fun _ => ?_
  constructor
  · intro h name n hname
    exact answerFields_all.1 (h (n, name) (parseAlias_yields.2 hname) 0)
  · rintro h ⟨n, name⟩ hname fuel
    exact answerFields_all.2 (h name n (parseAlias_yields.1 hname))

structure Hostent.Shaped (answers : Nat) (h : Hostent) : Prop where
  addrList : h.hAddrList.length = answers + 1
  aliases : h.hAliases.length = answers + 1
  room : sizeofHostent + 8 * (answers + 1) ≤ h.buf.length

def Hostent.keepAddress (h : Hostent) (answers : Nat) (addr : Bytes) : Hostent :=
  if h.lacksAddress answers addr then h.withAddress answers addr else h

def Hostent.keepAlias (h : Hostent) (answers : Nat) (name : Bytes) : Hostent :=
  if h.lacksAlias answers name then h.withAlias answers name else h

def Hostent.Accepts (h : Hostent) (answer : Answer) : Prop :=
  h.hostLen + answer.addr.length + answer.string.length < h.buf.length
  deriving Decidable

def Hostent.keep (h : Hostent) (answers : Nat) (answer : Answer) : Hostent :=
  { (h.aligned.keepAddress answers answer.addr).keepAlias answers answer.string with
    hLength := answer.addr.length
    hAddrtype := answer.addrtype }

/-- A new address has room at its aligned place, and a new owner 512 bytes behind it. -/
structure Hostent.Keeps (h : Hostent) (answers : Nat) (answer : Answer) : Prop where
  address : h.aligned.lacksAddress answers answer.addr = true →
    align h.hostLen + answer.addr.length ≤ h.buf.length
  name : (h.aligned.keepAddress answers answer.addr).lacksAlias answers answer.string = true →
    align h.hostLen + (if h.aligned.lacksAddress answers answer.addr then answer.addr.length
      else 0) + 512 ≤ h.buf.length

section
variable {h : Hostent} {addr : Bytes}

theorem storeAddress_result : (storeAddress answers addr h).result =
    some (h.keepAddress answers addr) := by
  unfold storeAddress Hostent.keepAddress
  split <;> rfl

theorem storeAlias_result : (storeAlias answers name h).result =
    some (h.keepAlias answers name) := by
  unfold storeAlias Hostent.keepAlias
  split <;> rfl

theorem slot_le {slots : List Pointer} (hlength : slots.length = answers + 1)
    (hnull : decide (slots[j]? = some .null) = true) : j ≤ answers := by
  obtain ⟨hlt, -⟩ := List.getElem?_eq_some_iff.1 (of_decide_eq_true hnull)
  omega

theorem keepAddress_buf_length (h : Hostent) (answers : Nat) (addr : Bytes) :
    (h.keepAddress answers addr).buf.length = h.buf.length := by
  unfold Hostent.keepAddress
  split
  · exact overwrite_length _ _ _
  · rfl

theorem keepAddress_hostLen (h : Hostent) (answers : Nat) (addr : Bytes) :
    (h.keepAddress answers addr).hostLen =
      h.hostLen + if h.lacksAddress answers addr then addr.length else 0 := by
  unfold Hostent.keepAddress
  split <;> rfl

theorem keepAlias_buf_length : (h.keepAlias answers name).buf.length = h.buf.length := by
  unfold Hostent.keepAlias
  split
  · exact overwrite_length _ _ _
  · rfl

theorem keep_buf_length (h : Hostent) (answers : Nat) (answer : Answer) :
    (h.keep answers answer).buf.length = h.buf.length :=
  keepAlias_buf_length.trans (keepAddress_buf_length _ _ _)

/-- What is left of the result behind a record; `none` when there is no room. -/
def Hostent.stored (h : Hostent) (answers : Nat) (answer : Answer) : Option Hostent :=
  if answer.addr = [] then some h
  else if h.Accepts answer then some (h.keep answers answer)
  else none

theorem storeAnswer_result (answers : Nat) (answer : Answer) (h : Hostent) :
    (storeAnswer answers answer h).result = some (h.stored answers answer) := by
  unfold storeAnswer Hostent.stored
  by_cases haddr : answer.addr = []
  · rw [if_pos haddr, if_pos haddr]
    rfl
  · rw [if_neg haddr, if_neg haddr]
    by_cases haccepts : h.Accepts answer
    · rw [if_pos haccepts, if_neg (Nat.not_le.2 haccepts), result_bind, storeAddress_result,
        Option.bind_some, result_bind, storeAlias_result]
      rfl
    · rw [if_neg haccepts, if_pos (Nat.not_lt.1 haccepts)]
      rfl

variable (hshaped : h.Shaped answers)
include hshaped

theorem storeAddress_all (size : Nat) (addr : Bytes) :
    (storeAddress answers addr h).All (Event.Inside size h.buf.length) ↔
      (h.lacksAddress answers addr = true → h.hostLen + addr.length ≤ h.buf.length) := by
  unfold storeAddress
  split
  · rename_i hlacks
    have hslot := slot_le hshaped.addrList hlacks
    have hroom := hshaped.room
    simp only [all_emit_bind, Event.Inside, all_pure, and_true, hlacks, true_imp_iff]
    exact ⟨fun hall => hall.2, fun hle => ⟨by omega, hle⟩⟩
  · rename_i hlacks
    exact ⟨fun _ h' => absurd h' hlacks, fun _ => all_pure _⟩

theorem storeAlias_all (size : Nat) (name : Bytes) :
    (storeAlias answers name h).All (Event.Inside size h.buf.length) ↔
      (h.lacksAlias answers name = true → h.hostLen + szNameSize ≤ h.buf.length) := by
  unfold storeAlias
  split
  · rename_i hlacks
    have hslot := slot_le hshaped.aliases hlacks
    have hroom := hshaped.room
    simp only [all_emit_bind, Event.Inside, all_pure, and_true, hlacks, true_imp_iff]
    exact ⟨fun hall => hall.2, fun hle => ⟨by omega, hle⟩⟩
  · rename_i hlacks
    exact ⟨fun _ h' => absurd h' hlacks, fun _ => all_pure _⟩

theorem Hostent.Shaped.keepAddress (addr : Bytes) :
    (h.keepAddress answers addr).Shaped answers := by
  unfold Hostent.keepAddress
  split
  · exact ⟨(List.length_set ..).trans hshaped.addrList, hshaped.aliases,
      hshaped.room.trans_eq (overwrite_length _ _ _).symm⟩
  · exact hshaped

theorem Hostent.Shaped.keepAlias (name : Bytes) : (h.keepAlias answers name).Shaped answers := by
  unfold Hostent.keepAlias
  split
  · exact ⟨hshaped.addrList, (List.length_set ..).trans hshaped.aliases,
      hshaped.room.trans_eq (overwrite_length _ _ _).symm⟩
  · exact hshaped

theorem Hostent.Shaped.aligned : h.aligned.Shaped answers :=
  ⟨hshaped.addrList, hshaped.aliases, hshaped.room⟩

theorem Hostent.Shaped.keep (answer : Answer) : (h.keep answers answer).Shaped answers := by
  have hstored := (hshaped.aligned.keepAddress answer.addr).keepAlias answer.string
  exact ⟨hstored.addrList, hstored.aliases, hstored.room⟩

theorem storeAnswer_all :
    (storeAnswer answers answer h).All (Event.Inside size h.buf.length) ↔
      (answer.addr ≠ [] → h.Accepts answer → h.Keeps answers answer) := by
  unfold storeAnswer
  by_cases haddr : answer.addr = []
  · rw [if_pos haddr]
    exact ⟨fun _ hne => absurd haddr hne, fun _ => all_pure _⟩
  · rw [if_neg haddr]
    by_cases haccepts : h.Accepts answer
    · have hlength := keepAddress_buf_length h.aligned answers answer.addr
      have haddress := storeAddress_all hshaped.aligned size answer.addr
      have hname := storeAlias_all (hshaped.aligned.keepAddress answer.addr) size answer.string
      have hroom := hshaped.room
      rw [hlength, keepAddress_hostLen] at hname
      rw [if_neg (Nat.not_le.2 haccepts), all_bind_of_some storeAddress_result,
        all_bind_of_some storeAlias_result, all_emit_bind]
      constructor
      · rintro ⟨haddr', hname', -⟩ _ _
        exact ⟨haddress.1 haddr', hname.1 hname'⟩
      · intro hkeeps
        obtain ⟨haddr', hname'⟩ := hkeeps haddr haccepts
        refine ⟨haddress.2 haddr', hname.2 hname', ?_, all_pure _⟩
        show 8 + 8 ≤ h.buf.length
        rw [sizeofHostent] at hroom
        omega
    · rw [if_pos (Nat.not_lt.1 haccepts)]
      exact ⟨fun _ _ h' => absurd h' haccepts, fun _ => all_pure _⟩

theorem stored_shaped (hstored : h.stored answers answer = some h') :
    h'.Shaped answers ∧ h'.buf.length = h.buf.length := by
  unfold Hostent.stored at hstored
  split at hstored
  · cases hstored
    exact ⟨hshaped, rfl⟩
  · split at hstored
    · cases hstored
      exact ⟨hshaped.keep answer, keep_buf_length h answers answer⟩
    · cases hstored

end

/-- What the records from a position on add stays inside, too; the first number is that of the
records left. -/
def AnswersInside (buf : Memory) (size answers : Nat) : Nat → Nat → Hostent → Prop
  | 0, _, _ => True
  | left+1, pos, h =>
      NameInside buf size pos ∧ ∀ name n, Spells buf size pos name n →
        RecordInside buf size pos n ∧
        ((answerAt buf pos n name).addr ≠ [] → h.Accepts (answerAt buf pos n name) →
          h.Keeps answers (answerAt buf pos n name)) ∧
        ∀ h', h.stored answers (answerAt buf pos n name) = some h' →
          pos + (answerAt buf pos n name).n < size →
          AnswersInside buf size answers left (pos + (answerAt buf pos n name).n) h'

def QuestionsInside (buf : Memory) (size : Nat) : Nat → Nat → Prop
  | 0, _ => True
  | left+1, pos =>
      NameInside buf size pos ∧ ∀ name n, Spells buf size pos name n →
        QuestionsInside buf size left (pos + n + 4)

def QuestionsEnd (buf : Memory) (size : Nat) : Nat → Nat → Option Bytes → Nat × Option Bytes → Prop
  | 0, pos, szName, r => r = (pos, szName)
  | left+1, pos, _, r =>
      ∃ name n, Spells buf size pos name n ∧ QuestionsEnd buf size left (pos + n + 4) (some name) r

def afterAnswer (fuel : Nat) (buf : Memory) (size answers left len : Nat) (answer : Answer)
    (h : Hostent) : Option Hostent → Trace Event Reply
  | none => pure (-6, some h)
  | some h =>
      if size ≤ len + answer.n then pure (finish h)
      else answersLoop fuel buf size answers left (len + answer.n) h

theorem answersLoop_succ (fuel : Nat) (buf : Memory) (size answers left len : Nat) (h : Hostent) :
    answersLoop fuel buf size answers (left + 1) len h =
      parseAnswer fuel buf size len >>= fun answer =>
        storeAnswer answers answer h >>= afterAnswer fuel buf size answers left len answer h := by
  rw [answersLoop]
  congr 1

theorem afterAnswer_grows
    (hloop : ∀ len h, Grows fun fuel => answersLoop fuel buf size answers left len h) (len : Nat)
    (answer : Answer) (h : Hostent) (stored : Option Hostent) :
    Grows fun fuel => afterAnswer fuel buf size answers left len answer h stored := by
  cases stored with
  | none => exact .const _
  | some h' =>
    by_cases hle : size ≤ len + answer.n
    · simp only [afterAnswer, if_pos hle]
      exact .const _
    · simp only [afterAnswer, if_neg hle]
      exact hloop _ _

theorem answersLoop_grows (buf : Memory) (size answers left len : Nat) (h : Hostent) :
    Grows fun fuel => answersLoop fuel buf size answers left len h := by
  induction left generalizing len h with
  | zero => exact .const _
  | succ left ih =>
    simp only [answersLoop_succ]
    apply (parseAnswer_grows buf size len).bind
    intro answer
    exact (Grows.const _).bind fun stored => afterAnswer_grows ih len answer h stored

theorem answersLoop_always (hshaped : h.Shaped answers) (hlength : h.buf.length = hostentLen) :
    Always (Event.Inside size hostentLen) (fun fuel =>
    answersLoop fuel buf size answers left len h) ↔
      AnswersInside buf size answers left len h := by
  induction left generalizing len h with
  | zero => exact ⟨fun _ => trivial, fun _ _ => all_pure _⟩
  | succ left ih =>
    have hrest := afterAnswer_grows (answersLoop_grows buf size answers left) len
    -- what is behind a record: the store, and the loop when it goes on
    have hstore : ∀ answer, Always (Event.Inside size hostentLen) (fun fuel =>
        storeAnswer answers answer h >>= afterAnswer fuel buf size answers left len answer h) ↔
          (answer.addr ≠ [] → h.Accepts answer → h.Keeps answers answer) ∧
          ∀ h', h.stored answers answer = some h' → len + answer.n < size →
            AnswersInside buf size answers left (len + answer.n) h' := by
      intro answer
      rw [always_bind (Grows.const (storeAnswer answers answer h)) (hrest answer h), always_const,
        ← hlength, storeAnswer_all hshaped]
      refine and_congr_right fun _ => ?_
      constructor
      · intro hall h' hstored hlt
        have hafter := hall (some h') ((yields_const _ _).2 (by rw [storeAnswer_result, hstored]))
        simp only [afterAnswer, if_neg (Nat.not_le.2 hlt)] at hafter
        obtain ⟨hshaped', hlength'⟩ := stored_shaped hshaped hstored
        exact (ih hshaped' (hlength'.trans hlength)).1 (hlength ▸ hafter)
      · intro hall stored hyields
        rw [yields_const, storeAnswer_result] at hyields
        cases stored with
        | none => exact fun _ => all_pure _
        | some h' =>
          have hstored := Option.some.inj hyields
          by_cases hlt : len + answer.n < size
          · simp only [afterAnswer, if_neg (Nat.not_le.2 hlt)]
            obtain ⟨hshaped', hlength'⟩ := stored_shaped hshaped hstored
            exact hlength ▸ (ih hshaped' (hlength'.trans hlength)).2 (hall h' hstored hlt)
          · simp only [afterAnswer, if_pos (Nat.not_lt.1 hlt)]
            exact fun _ => all_pure _
    simp only [answersLoop_succ]
    rw [always_bind (parseAnswer_grows buf size len) fun answer => (Grows.const _).bind
      (hrest answer h), parseAnswer_always, AnswersInside]
    simp only [hstore]
    constructor
    · rintro ⟨⟨hname, hrecord⟩, hall⟩
      refine ⟨hname, ?_⟩
      intro name n hspells
      exact ⟨hrecord name n hspells, hall _ (parseAnswer_yields.2 ⟨name, n, hspells, rfl⟩)⟩
    · rintro ⟨hname, hall⟩
      refine ⟨⟨hname, fun name n hspells => (hall name n hspells).1⟩, ?_⟩
      intro answer hyields
      obtain ⟨name, n, hspells, rfl⟩ := parseAnswer_yields.1 hyields
      exact (hall name n hspells).2

theorem questionsLoop_grows (buf : Memory) (size left len : Nat) (szName : Option Bytes) :
    Grows fun fuel => questionsLoop fuel buf size left len szName := by
  induction left generalizing len szName with
  | zero => exact .const _
  | succ left ih =>
    simp only [questionsLoop]
    exact (parseAlias_grows buf size len).bind fun r => ih _ _

theorem questionsLoop_always :
    Always (Event.Inside size hostentLen) (fun fuel =>
      questionsLoop fuel buf size left len szName) ↔ QuestionsInside buf size left len := by
  induction left generalizing len szName with
  | zero => exact ⟨fun _ => trivial, fun _ _ => all_pure _⟩
  | succ left ih =>
    simp only [questionsLoop]
    rw [always_bind (parseAlias_grows buf size len) fun r => questionsLoop_grows buf size left _ _,
      parseAlias_always, QuestionsInside]
    refine and_congr_right fun _ => ?_
    constructor
    · intro hall name n hspells
      exact ih.1 (hall (n, name) (parseAlias_yields.2 hspells))
    · rintro hall ⟨n, name⟩ hyields
      exact ih.2 (hall name n (parseAlias_yields.1 hyields))

theorem questionsLoop_yields : Yields (fun fuel => questionsLoop fuel buf size left len szName) r ↔
      QuestionsEnd buf size left len szName r := by
  induction left generalizing len szName with
  | zero =>
    show Yields (fun _ => pure (len, szName)) r ↔ r = (len, szName)
    rw [yields_const, result_pure, Option.some.injEq, eq_comm]
  | succ left ih =>
    simp only [questionsLoop]
    rw [yields_bind (parseAlias_grows buf size len) fun r => questionsLoop_grows buf size left _ _,
      QuestionsEnd]
    constructor
    · rintro ⟨⟨n, name⟩, hname, hrest⟩
      exact ⟨name, n, parseAlias_yields.1 hname, ih.1 hrest⟩
    · rintro ⟨name, n, hname, hrest⟩
      exact ⟨(n, name), parseAlias_yields.2 hname, ih.2 hrest⟩

theorem QuestionsEnd.stored
    (h : QuestionsEnd buf size left len (some name) r) : ∃ name', r.2 = some name' := by
  induction left generalizing len name with
  | zero =>
    rw [QuestionsEnd] at h
    exact ⟨name, by rw [h]⟩
  | succ left ih =>
    obtain ⟨name', n, -, h⟩ := h
    exact ih h

theorem QuestionsEnd.stored_of_ne_zero (hleft : left ≠ 0)
    (h : QuestionsEnd buf size left len szName r) : ∃ name, r.2 = some name := by
  cases left with
  | zero => exact absurd rfl hleft
  | succ left =>
    obtain ⟨name, n, -, h⟩ := h
    exact h.stored

def FillInside (buf : Memory) (size : Nat) (hostentBuf : Bytes) (answers len : Nat) (name : Bytes) :
    Prop :=
  sizeofHostent + (answers + 1) * 2 * 4 + name.length < hostentBuf.length →
    sizeofHostent + 8 * (answers + 1) + szNameSize ≤ hostentBuf.length ∧
      AnswersInside buf size answers answers len (newHostent hostentBuf answers name)

theorem newHostent_shaped (hroom : sizeofHostent + 8 * (answers + 1) ≤ hostentBuf.length) :
    (newHostent hostentBuf answers name).Shaped answers := by
  refine ⟨List.length_replicate, ?_, hroom.trans_eq (overwrite_length _ _ _).symm⟩
  simp [newHostent]

theorem fillHostent_always : Always (Event.Inside size hostentBuf.length)
        (fun fuel => fillHostent fuel buf size hostentBuf answers len name) ↔
      FillInside buf size hostentBuf answers len name := by
  by_cases hlt : sizeofHostent + (answers + 1) * 2 * 4 + name.length < hostentBuf.length
  · have hroom : sizeofHostent + 8 * (answers + 1) ≤ hostentBuf.length := by omega
    have hbuf : (newHostent hostentBuf answers name).buf.length = hostentBuf.length :=
      overwrite_length _ _ _
    simp only [FillInside, hlt, true_imp_iff, ← answersLoop_always (newHostent_shaped hroom) hbuf,
      fillHostent, if_neg (Nat.not_le.2 hlt), Always, all_emit_bind, Event.Inside]
    constructor
    · intro h
      exact ⟨(h 0).2.2.2.2.2.1, fun fuel => (h fuel).2.2.2.2.2.2⟩
    · rintro ⟨hname, hanswers⟩ fuel
      have hsize : sizeofHostent = 20 := rfl
      exact ⟨by omega, by omega, by omega, by omega, by omega, hname, hanswers fuel⟩
  · simp only [FillInside, hlt, false_imp_iff, iff_true, fillHostent, if_pos (Nat.not_lt.1 hlt)]
    exact fun _ => all_pure _

theorem fillHostent_grows : Grows fun fuel =>
    fillHostent fuel buf size hostentBuf answers len name := by
  by_cases hle : hostentBuf.length ≤ sizeofHostent + (answers + 1) * 2 * 4 + name.length
  · simp only [fillHostent, if_pos hle]
    exact .const _
  · simp only [fillHostent, if_neg hle]
    iterate 6 refine (Grows.const _).bind fun _ => ?_
    exact answersLoop_grows buf size answers answers len _

structure ResponseInside (buf : Memory) (size : Nat) (hostentBuf : Bytes) : Prop where
  flags : 4 ≤ size
  counts : shortAt buf 2 &&& 0x000f = 0 → 8 ≤ size ∧ shortAt buf 4 ≠ 0
  questions : shortAt buf 2 &&& 0x000f = 0 → QuestionsInside buf size (shortAt buf 4) 12
  answers : shortAt buf 2 &&& 0x000f = 0 → ∀ len name, QuestionsEnd buf size (shortAt buf 4) 12 none
    (len, some name) → FillInside buf size hostentBuf (shortAt buf 6) len (cstring name).bytes

section
variable (fuel : Nat) (buf : Memory) (size : Nat) (hostentBuf junk : Bytes)

def afterQuestions (answers : Nat) (r : Nat × Option Bytes) : Trace Event Reply := do
  .emit (.loadName r.2.isSome)
  fillHostent fuel buf size hostentBuf answers r.1 (cstring (r.2.getD junk)).bytes

theorem afterQuestions_grows (answers : Nat) (r : Nat × Option Bytes) :
    Grows fun fuel => afterQuestions fuel buf size hostentBuf junk answers r :=
  (Grows.const _).bind fun _ => fillHostent_grows

theorem afterQuestions_always : Always (Event.Inside size hostentBuf.length)
        (fun fuel => afterQuestions fuel buf size hostentBuf junk answers r) ↔
      r.2.isSome = true ∧ FillInside buf size hostentBuf answers r.1
      (cstring (r.2.getD junk)).bytes := by
  rw [← fillHostent_always]
  simp only [Always, afterQuestions, all_emit_bind, Event.Inside]
  exact ⟨fun h => ⟨(h 0).1, fun fuel => (h fuel).2⟩, fun h fuel => ⟨h.1, h.2 fuel⟩⟩

theorem parseDnsResponse_eq : parseDnsResponse fuel buf size hostentBuf junk =
    loadShort buf 2 >>= fun flags =>
      if flags &&& 0x000f ≠ 0 then pure (((flags &&& 0x000f : Nat) : Int), none)
      else loadShort buf 4 >>= fun questions => loadShort buf 6 >>= fun answers =>
        questionsLoop fuel buf size questions 12 none >>= afterQuestions fuel buf size hostentBuf
          junk answers := rfl

theorem parseDnsResponse_grows : Grows fun fuel =>
    parseDnsResponse fuel buf size hostentBuf junk := by
  simp only [parseDnsResponse_eq]
  refine (Grows.const _).bind fun flags => ?_
  by_cases herr : flags &&& 0x000f ≠ 0
  · simp only [if_pos herr]
    exact .const _
  · simp only [if_neg herr]
    refine (Grows.const _).bind fun questions => (Grows.const _).bind fun answers => ?_
    exact (questionsLoop_grows buf size questions 12 none).bind
      (afterQuestions_grows buf size hostentBuf junk answers)

/-- With any fuel, every read and every store is inside: exactly for the responses and buffers
described above. -/
theorem accesses_inside_iff :
    (∀ fuel, ∀ e ∈ (parseDnsResponse fuel buf size hostentBuf junk).events,
      e.Inside size hostentBuf.length) ↔ ResponseInside buf size hostentBuf := by
  show Always (Event.Inside size hostentBuf.length)
    (fun fuel => parseDnsResponse fuel buf size hostentBuf junk) ↔ _
  by_cases herr : shortAt buf 2 &&& 0x000f = 0
  · have hquestions := always_bind (P := Event.Inside size hostentBuf.length)
      (questionsLoop_grows buf size (shortAt buf 4) 12 none)
      (afterQuestions_grows buf size hostentBuf junk (shortAt buf 6))
    rw [questionsLoop_always] at hquestions
    have hheader : Always (Event.Inside size hostentBuf.length)
          (fun fuel => parseDnsResponse fuel buf size hostentBuf junk) ↔
        8 ≤ size ∧ Always (Event.Inside size hostentBuf.length) (fun fuel =>
          questionsLoop fuel buf size (shortAt buf 4) 12 none >>=
            afterQuestions fuel buf size hostentBuf junk (shortAt buf 6)) := by
      simp only [Always, parseDnsResponse_eq, loadShort_bind_all, herr, ne_eq, not_true_eq_false,
        if_false]
      constructor
      · intro h
        exact ⟨(h 0).2.2.1, fun fuel => (h fuel).2.2.2⟩
      · rintro ⟨hlen, h⟩ fuel
        exact ⟨by omega, by omega, by omega, h fuel⟩
    rw [hheader, hquestions]
    constructor
    · rintro ⟨hlen, hinside, hall⟩
      refine ⟨by omega, fun _ => ⟨hlen, ?_⟩, fun _ => hinside, ?_⟩
      · intro hzero
        have hend : QuestionsEnd buf size (shortAt buf 4) 12 none (12, none) := by
          rw [hzero]
          rfl
        have hstored := ((afterQuestions_always ..).1 (hall _ (questionsLoop_yields.2 hend))).1
        exact absurd hstored (by decide)
      · intro _ len name hend
        exact ((afterQuestions_always ..).1 (hall _ (questionsLoop_yields.2 hend))).2
    · rintro ⟨-, hcounts, hinside, hanswers⟩
      obtain ⟨hlen, hne⟩ := hcounts herr
      refine ⟨hlen, hinside herr, ?_⟩
      rintro ⟨len, szName⟩ hyields
      have hend := questionsLoop_yields.1 hyields
      obtain ⟨name, hname⟩ := hend.stored_of_ne_zero hne
      dsimp only at hname
      subst hname
      exact (afterQuestions_always ..).2 ⟨rfl, hanswers herr len name hend⟩
  · simp only [Always, parseDnsResponse_eq, loadShort_bind_all, herr, ne_eq, not_false_eq_true,
      if_true, all_pure, and_true]
    constructor
    · intro h
      exact ⟨h 0, fun h' => absurd h' herr, fun h' => absurd h' herr, fun h' => absurd h' herr⟩
    · rintro ⟨hflags, -, -, -⟩ _
      exact hflags

end

/-- A response without a name whose A record has 40 bytes. -/
def longAddress : Bytes :=
  [0, 1, 0x81, 0x80, 0, 1, 0, 1, 0, 0, 0, 0] ++ [0, 0, 1, 0, 1] ++ [0, 0, 1, 0, 1, 0, 0, 0, 60, 0,
    40] ++ List.replicate 40 127

theorem long_address_overruns : longAddress.length = 68 ∧
    .storeAddr 40 ∈ (parseDnsResponse 1 (fun i => longAddress.getD i 0) 68 (List.replicate 1024 0)
    []).events ∧ ¬(Event.storeAddr 40).Inside 68 1024 := by
  refine ⟨by decide +kernel, by decide +kernel, by decide⟩

end SwApi.Dns
