import SwApi.Dns.Safety

/-! What a well-formed response leaves in `struct hostent`. -/
namespace SwApi.Dns
open Library Trace List Option

/-- An array that has been filled from the front; its last entry may never be written. -/
def slotsOf (answers : Nat) (last : Pointer) (offsets : List Nat) : List Pointer :=
  offsets.map .into ++ (replicate (answers - offsets.length) .null ++ [last])

theorem slotsOf_take (hle : offsets.length ≤ answers) :
    (slotsOf answers last offsets).take answers =
      offsets.map .into ++ replicate (answers - offsets.length) .null := by
  rw [slotsOf, ← append_assoc]
  apply take_left'
  rw [length_append, length_map, length_replicate]
  omega

theorem slotsOf_free (hlt : offsets.length < answers) : slotsOf answers last offsets =
      offsets.map .into ++ .null :: (replicate (answers - (offsets.length + 1)) .null ++
      [last]) := by
  obtain ⟨m, rfl⟩ := Nat.exists_eq_add_of_lt hlt
  have hm : offsets.length + m + 1 - offsets.length = m + 1 := by omega
  have hm' : offsets.length + m + 1 - (offsets.length + 1) = m := by omega
  rw [slotsOf, hm, hm', replicate_succ]
  rfl

theorem slotOf_new (hle : offsets.length ≤ answers) (hnew : ∀ o ∈ offsets, same o = false) :
    slotOf answers same (slotsOf answers last offsets) = offsets.length := by
  rw [slotOf, slotsOf_take hle, takeWhile_append_of_pos]
  · cases answers - offsets.length with
    | zero => simp
    | succ m => simp [replicate_succ, Pointer.differs]
  · intro p hp
    obtain ⟨o, ho, rfl⟩ := mem_map.1 hp
    show (!same o) = true
    rw [hnew o ho]
    rfl

theorem slotOf_old (hle : offsets.length ≤ answers) (hold : ∃ o ∈ offsets, same o = true) :
    ∃ o, (slotsOf answers last offsets)[slotOf answers same (slotsOf answers last offsets)]? =
    some (.into o) := by
  rw [slotOf, slotsOf_take hle, slotsOf]
  generalize replicate (answers - offsets.length) Pointer.null = free
  generalize free ++ [last] = rest
  clear hle
  induction offsets with
  | nil =>
    obtain ⟨o, ho, -⟩ := hold
    exact absurd ho not_mem_nil
  | cons o offsets ih =>
    rw [map_cons, cons_append, cons_append, takeWhile_cons]
    cases hsame : same o with
    | true =>
      rw [Pointer.differs, hsame]
      exact ⟨o, rfl⟩
    | false =>
      rw [Pointer.differs, hsame]
      obtain ⟨o', ho', hsame'⟩ := hold
      rcases mem_cons.1 ho' with rfl | ho'
      · rw [hsame] at hsame'
        cases hsame'
      · exact ih ⟨o', ho', hsame'⟩

theorem slotsOf_set (hlt : offsets.length < answers) :
    (slotsOf answers last offsets).set offsets.length (.into o) = slotsOf answers last
    (offsets ++ [o]) := by
  rw [slotsOf_free hlt, set_append_right _ _ (by rw [length_map]), length_map, Nat.sub_self,
    set_cons_zero, slotsOf, length_append, map_append, append_assoc]
  rfl

/-- The entries of an array up to the first NULL; an old pointer is no entry. -/
def entries : List Pointer → Option (List Nat)
  | [] => none
  | .null :: _ => some []
  | .into o :: slots => (entries slots).map (o :: ·)
  | .stale :: _ => none

theorem entries_append (offsets : List Nat) (rest : List Pointer) :
    entries (offsets.map .into ++ rest) = (entries rest).map (offsets ++ ·) := by
  induction offsets with
  | nil => simp
  | cons o offsets ih => simp [entries, ih, Function.comp_def]

theorem entries_slotsOf (h : offsets.length < answers ∨ last = .null) :
    entries (slotsOf answers last offsets) = some offsets := by
  have hrest : entries (replicate (answers - offsets.length) .null ++ [last]) = some [] := by
    cases hm : answers - offsets.length with
    | zero =>
      rw [h.resolve_left (by omega)]
      rfl
    | succ m => rfl
  simp [slotsOf, entries_append, hrest]

def addNew (l : List Bytes) (a : Bytes) : List Bytes := if a ∈ l then l else l ++ [a]

theorem addNew_eraseDups : addNew l.eraseDups a = (l ++ [a]).eraseDups := by
  rw [addNew, eraseDups_append, removeAll]
  by_cases ha : a ∈ l
  · rw [if_pos (mem_eraseDups.2 ha), filter_cons_of_neg (by simp [ha])]
    simp
  · rw [if_neg fun h => ha (mem_eraseDups.1 h), filter_cons_of_pos (by simp [ha])]
    rfl

theorem foldl_addNew (l : List Bytes) : l.foldl addNew [] = l.eraseDups := by
  induction l using reverseRecOn with
  | nil => rfl
  | append_singleton l a ih => rw [foldl_append, ih, foldl_cons, foldl_nil, addNew_eraseDups]

theorem addNew_length_le (l : List Bytes) (a : Bytes) : (addNew l a).length ≤ l.length + 1 := by
  unfold addNew
  split <;> simp

structure Filled (answers : Nat) (last : Pointer) (question : Bytes) (addrs names : List Bytes)
    (h : Hostent) : Prop where
  addresses : ∃ offsets, h.hAddrList = slotsOf answers .null offsets ∧
    Forall₂ (StoredAt h.buf h.hostLen) offsets addrs
  aliases : ∃ offsets, h.hAliases = slotsOf answers last offsets ∧
    Forall₂ (fun o s => StoredAt h.buf h.hostLen o (s ++ [0])) offsets names
  name : StoredAt h.buf h.hostLen h.hName (question ++ [0])
  four : ∀ a ∈ addrs, a.length = 4
  strings : ∀ s ∈ names, 0 ∉ s

theorem forall₂_left (h : Forall₂ R offsets l) (ho : o ∈ offsets) : ∃ a ∈ l, R o a := by
  induction h with
  | nil => exact absurd ho not_mem_nil
  | cons hr _ ih =>
    rcases mem_cons.1 ho with rfl | ho
    · exact ⟨_, mem_cons_self, hr⟩
    · obtain ⟨a, ha, hr⟩ := ih ho
      exact ⟨a, mem_cons_of_mem _ ha, hr⟩

theorem forall₂_map (h : Forall₂ R offsets l) {f : Nat → Bytes} (hf : ∀ o, ∀ a ∈ l, R o a →
    f o = a) : offsets.map f = l := by
  induction h with
  | nil => rfl
  | cons hr _ ih => rw [map_cons, hf _ _ mem_cons_self hr, ih fun o a ha =>
    hf o a (mem_cons_of_mem _ ha)]

theorem string_of_stored (h : StoredAt block limit o (s ++ [0])) (hs : 0 ∉ s) :
    (cstring (block.drop o)).bytes = s := by
  rw [← take_append_drop (s ++ [0]).length (block.drop o), h.content, append_assoc]
  exact cstring_append_zero hs _

theorem strncpy_eq (hs : s.length < szNameSize) :
    strncpy s szNameSize = (s ++ [0]) ++ replicate (szNameSize - (s.length + 1)) 0 := by
  obtain ⟨m, hm⟩ := Nat.exists_eq_add_of_lt hs
  have hrest : szNameSize - (s.length + 1) = m := by omega
  have htake : szNameSize - s.length = m + 1 := by omega
  rw [strncpy, take_of_length_le (Nat.le_of_lt hs), hrest, htake, replicate_succ, append_assoc]
  rfl

theorem storedAt_strncpy (hs : s.length < szNameSize) (hroom : i + szNameSize ≤ block.length) :
    StoredAt (overwrite block i (strncpy s szNameSize)) (i + s.length + 1) i (s ++ [0]) := by
  have hlimit : i + s.length + 1 = i + (s ++ [0]).length := by simp [Nat.add_assoc]
  rw [strncpy_eq hs, hlimit]
  apply storedAt_overwrite
  rw [length_append, length_append, length_replicate, length_singleton]
  omega

section
variable {h : Hostent}

def newBytes (l : List Bytes) (a : Bytes) (n : Nat) : Nat := if a ∈ l then 0 else n

theorem stored_behind (data : Bytes) (hstored : StoredAt h.buf h.hostLen o a)
    (hroom : h.hostLen ≤ h.buf.length) (hlimit : h.hostLen ≤ limit) :
    StoredAt (overwrite h.buf h.hostLen data) limit o a :=
  (hstored.overwrite (Nat.le_refl _) hroom).mono hlimit

theorem slotOf_cases (hslots : slots = slotsOf answers last offsets) (hall : Forall₂ R offsets l)
    (hlt : l.length < answers) (hsame : ∀ o a, a ∈ l → R o a → (same o = true ↔ a = x)) :
    (x ∈ l → ∃ o, slots[slotOf answers same slots]? = some (.into o)) ∧
      (x ∉ l → slots[slotOf answers same slots]? = some .null ∧
        ∀ o, slots.set (slotOf answers same slots) (.into o) = slotsOf answers last
        (offsets ++ [o])) := by
  have hlength : offsets.length < answers := hall.length_eq ▸ hlt
  subst hslots
  constructor
  · intro hx
    obtain ⟨o, ho, hr⟩ := forall₂_left hall.flip hx
    exact slotOf_old (Nat.le_of_lt hlength) ⟨o, ho, (hsame o x hx hr).2 rfl⟩
  · intro hx
    have hnew : ∀ o ∈ offsets, same o = false := by
      intro o ho
      obtain ⟨a, ha, hr⟩ := forall₂_left hall ho
      rw [Bool.eq_false_iff, ne_eq, hsame o a ha hr]
      rintro rfl
      exact hx ha
    rw [slotOf_new (Nat.le_of_lt hlength) hnew]
    refine ⟨?_, fun o => slotsOf_set hlength⟩
    rw [slotsOf_free hlength, getElem?_append_right (by rw [length_map]), length_map, Nat.sub_self,
      getElem?_cons_zero]

theorem le_align (n : Nat) : n ≤ align n := by
  unfold align
  omega

variable (hfilled : Filled answers last question addrs names h)
include hfilled

theorem Filled.transfer (hstored : ∀ o a, StoredAt h.buf h.hostLen o a → StoredAt buf limit o a) :
    Filled answers last question addrs names { h with buf := buf, hostLen := limit } := by
  obtain ⟨offsets, hlist, hall⟩ := hfilled.addresses
  obtain ⟨offsets', hlist', hall'⟩ := hfilled.aliases
  exact ⟨⟨offsets, hlist, hall.imp fun _ _ => hstored _ _⟩,
    ⟨offsets', hlist', hall'.imp fun _ _ => hstored _ _⟩,
    hstored _ _ hfilled.name, hfilled.four, hfilled.strings⟩

theorem Filled.keepAddress (hlt : addrs.length < answers) {addr : Bytes}
    (haddr : addr.length = 4) (hroom : h.hostLen + 4 ≤ h.buf.length) :
    Filled answers last question (addNew addrs addr) names (h.keepAddress answers addr) ∧
      (h.keepAddress answers addr).hostLen = h.hostLen + newBytes addrs addr 4 := by
  obtain ⟨offsets, hlist, hall⟩ := hfilled.addresses
  have hsame (o : Nat) (a : Bytes) (ha : a ∈ addrs) (hstored : StoredAt h.buf h.hostLen o a) :
      ((h.buf.drop o).take addr.length == addr) = true ↔ a = addr := by
    rw [beq_iff_eq, haddr, ← hfilled.four a ha, hstored.content]
  obtain ⟨hold, hnew⟩ := slotOf_cases hlist hall hlt hsame
  by_cases hmem : addr ∈ addrs
  · obtain ⟨o, ho⟩ := hold hmem
    have hlacks : h.lacksAddress answers addr = false := by
      simp [Hostent.lacksAddress, Hostent.addressSlot, ho]
    rw [Hostent.keepAddress, hlacks, addNew, if_pos hmem, newBytes, if_pos hmem]
    exact ⟨hfilled, rfl⟩
  · obtain ⟨hfree, hset⟩ := hnew hmem
    have hlacks : h.lacksAddress answers addr = true := by
      simp [Hostent.lacksAddress, Hostent.addressSlot, hfree]
    have hbefore : h.hostLen ≤ h.buf.length := by omega
    have hstore : StoredAt (overwrite h.buf h.hostLen addr)
      (h.hostLen + addr.length) h.hostLen addr := by
      have hroom' : h.hostLen + (addr ++ []).length ≤ h.buf.length := by rwa [append_nil, haddr]
      have hstored := storedAt_overwrite hroom'
      rwa [append_nil] at hstored
    have hlimit : h.hostLen ≤ (h.withAddress answers addr).hostLen := Nat.le_add_right _ _
    rw [Hostent.keepAddress, if_pos hlacks, addNew, if_neg hmem, newBytes, if_neg hmem]
    have hbehind := fun o a hs => @stored_behind h o a _ addr hs hbefore hlimit
    have hmoved := hfilled.transfer hbehind
    refine ⟨⟨⟨offsets ++ [h.hostLen], hset h.hostLen, ?_⟩, hmoved.aliases, hmoved.name, ?_,
      hfilled.strings⟩, ?_⟩
    · exact rel_append (hall.imp hbehind) (.cons hstore .nil)
    · exact forall_mem_append.2 ⟨hfilled.four, forall_mem_singleton.2 haddr⟩
    · exact congrArg (h.hostLen + ·) haddr

theorem Filled.keepAlias (hlt : names.length < answers) {name : Bytes}
    (hname : name.length < szNameSize) (hnul : 0 ∉ name)
    (hroom : h.hostLen + szNameSize ≤ h.buf.length) :
    Filled answers last question addrs (addNew names name) (h.keepAlias answers name) ∧
      (h.keepAlias answers name).hostLen = h.hostLen + newBytes names name (name.length + 1) := by
  obtain ⟨offsets, hlist, hall⟩ := hfilled.aliases
  have hsame (o : Nat) (s : Bytes) (hs : s ∈ names)
    (hstored : StoredAt h.buf h.hostLen o (s ++ [0])) : (h.string o == name) = true ↔ s = name := by
    rw [beq_iff_eq, Hostent.string, string_of_stored hstored (hfilled.strings s hs)]
  obtain ⟨hold, hnew⟩ := slotOf_cases hlist hall hlt hsame
  by_cases hmem : name ∈ names
  · obtain ⟨o, ho⟩ := hold hmem
    have hlacks : h.lacksAlias answers name = false := by
      simp [Hostent.lacksAlias, Hostent.aliasSlot, ho]
    rw [Hostent.keepAlias, hlacks, addNew, if_pos hmem, newBytes, if_pos hmem]
    exact ⟨hfilled, rfl⟩
  · obtain ⟨hfree, hset⟩ := hnew hmem
    have hlacks : h.lacksAlias answers name = true := by
      simp [Hostent.lacksAlias, Hostent.aliasSlot, hfree]
    have hbefore : h.hostLen ≤ h.buf.length := by omega
    have hstore := storedAt_strncpy hname hroom
    have hlimit : h.hostLen ≤ (h.withAlias answers name).hostLen := by
      show h.hostLen ≤ h.hostLen + name.length + 1
      omega
    rw [Hostent.keepAlias, if_pos hlacks, addNew, if_neg hmem, newBytes, if_neg hmem]
    have hbehind := fun o a hs => @stored_behind h o a _ (strncpy name szNameSize) hs hbefore hlimit
    have hmoved := hfilled.transfer hbehind
    refine ⟨⟨hmoved.addresses, ⟨offsets ++ [h.hostLen], hset h.hostLen, ?_⟩, hmoved.name,
      hfilled.four, ?_⟩, rfl⟩
    · exact rel_append (hall.imp fun _ _ => hbehind _ _) (.cons hstore .nil)
    · exact forall_mem_append.2 ⟨hfilled.strings, forall_mem_singleton.2 hnul⟩

theorem Filled.aligned : Filled answers last question addrs names h.aligned :=
  hfilled.transfer fun _ _ hs => hs.mono (le_align h.hostLen)

theorem Filled.keep (haddrs : addrs.length < answers)
    (hnames : names.length < answers) {answer : Answer} (haddr : answer.addr.length = 4)
    (hname : answer.string.length < szNameSize) (hnul : 0 ∉ answer.string)
    (hroom : align h.hostLen + 4 + szNameSize ≤ h.buf.length) :
    Filled answers last question (addNew addrs answer.addr) (addNew names answer.string)
    (h.keep answers answer) ∧
      (h.keep answers answer).hostLen = align h.hostLen + newBytes addrs answer.addr 4 +
        newBytes names answer.string (answer.string.length + 1) := by
  have hroom' : h.aligned.hostLen + 4 ≤ h.aligned.buf.length := by
    show align h.hostLen + 4 ≤ h.buf.length
    omega
  obtain ⟨hfilled₁, hlen₁⟩ := hfilled.aligned.keepAddress haddrs haddr hroom'
  have hnew : newBytes addrs answer.addr 4 ≤ 4 := by
    unfold newBytes
    split <;> decide
  have hroom₁ : (h.aligned.keepAddress answers answer.addr).hostLen + szNameSize ≤
      (h.aligned.keepAddress answers answer.addr).buf.length := by
    rw [hlen₁, keepAddress_buf_length]
    show align h.hostLen + _ + _ ≤ h.buf.length
    omega
  obtain ⟨hfilled₂, hlen₂⟩ := hfilled₁.keepAlias hnames hname hnul hroom₁
  rw [hlen₁] at hlen₂
  exact ⟨⟨hfilled₂.addresses, hfilled₂.aliases, hfilled₂.name, hfilled₂.four, hfilled₂.strings⟩,
    hlen₂⟩

end

structure Record where
  labels : List Bytes
  type : Nat
  data : Bytes

def Record.owner (r : Record) : Bytes := dotted r.labels

structure Record.Valid (r : Record) : Prop where
  nulFree : ∀ label ∈ r.labels, 0 ∉ label
  short : r.owner.length < 256
  address : r.type = 1 → r.data.length = 4

inductive RecordsAt (buf : Memory) (size : Nat) : Nat → List Record → Prop where
  | nil {pos : Nat} : RecordsAt buf size pos []
  | cons {pos n : Nat} {r : Record} {records : List Record} : NameAt buf size pos r.labels n →
      shortAt buf (pos + n) = r.type → shortAt buf (pos + n + 8) = r.data.length →
      slice buf (pos + n + 10) r.data.length = r.data → pos + n + 10 + r.data.length ≤ size →
      RecordsAt buf size (pos + (n + 10 + r.data.length)) records →
        RecordsAt buf size pos (r :: records)

structure WellFormed (buf : Memory) (size : Nat) (question : List Bytes) (records : List Record) :
    Prop where
  errcode : shortAt buf 2 &&& 0x000f = 0
  questions : shortAt buf 4 = 1
  answers : shortAt buf 6 = records.length
  body : ∃ n, NameAt buf size 12 question n ∧ 12 + n + 4 ≤ size ∧
    RecordsAt buf size (12 + n + 4) records
  nulFree : ∀ label ∈ question, 0 ∉ label
  short : (dotted question).length < 256
  valid : ∀ r ∈ records, r.Valid

def addressRecords (records : List Record) : List Record := records.filter fun r => r.type = 1

/-- Addresses are aligned, and nothing is kept twice. -/
def neededFrom : Nat → List Bytes → List Bytes → List Record → Nat
  | used, _, _, [] => used
  | used, addrs, names, r :: records =>
      neededFrom (align used + newBytes addrs r.data 4 + newBytes names r.owner
        (r.owner.length + 1)) (addNew addrs r.data) (addNew names r.owner) records

def needed (question : List Bytes) (records : List Record) : Nat :=
  neededFrom (sizeofHostent + 8 * (records.length + 1) + (dotted question).length + 1) [] []
    (addressRecords records)

theorem le_neededFrom (used : Nat) (addrs names : List Bytes) (records : List Record) :
    used ≤ neededFrom used addrs names records := by
  induction records generalizing used addrs names with
  | nil => exact Nat.le_refl _
  | cons r records ih =>
    rw [neededFrom]
    have hle := le_align used
    have hrest :=
      ih (align used + newBytes addrs r.data 4 + newBytes names r.owner (r.owner.length + 1))
      (addNew addrs r.data) (addNew names r.owner)
    omega

theorem dotted_nulFree (h : ∀ label ∈ labels, 0 ∉ label) : 0 ∉ dotted labels := by
  cases labels with
  | nil => exact not_mem_nil
  | cons label labels =>
    rw [dotted_cons, mem_append, not_or]
    refine ⟨h label mem_cons_self, ?_⟩
    intro hmem
    obtain ⟨l, hl, hzero⟩ := mem_flatMap.1 hmem
    rcases mem_cons.1 hzero with heq | hzero
    · exact absurd heq (by decide)
    · exact h l (mem_cons_of_mem _ hl) hzero

theorem Record.Valid.owner_nulFree {r : Record} (h : r.Valid) : 0 ∉ r.owner :=
  dotted_nulFree h.nulFree

theorem RecordsAt.lt (h : RecordsAt buf size pos records) (hne : records ≠ []) : pos < size := by
  cases h with
  | nil => exact absurd rfl hne
  | cons hname _ _ _ _ _ => exact hname.lt

theorem answersLoop_round
    (hname : Spells buf size pos name n) (hstored : h.stored answers (answerAt buf pos n name) =
    some h') (hlast : left = 0 ∨ pos + (answerAt buf pos n name).n < size)
    (hrest : Yields (fun fuel => answersLoop fuel buf size answers left
    (pos + (answerAt buf pos n name).n) h') reply) :
    Yields (fun fuel => answersLoop fuel buf size answers (left + 1) pos h) reply := by
  have hafter := afterAnswer_grows (answersLoop_grows buf size answers left) pos
  simp only [answersLoop_succ]
  rw [yields_bind (parseAnswer_grows buf size pos) fun answer => (Grows.const _).bind
    (hafter answer h)]
  refine ⟨answerAt buf pos n name, parseAnswer_yields.2 ⟨name, n, hname, rfl⟩, ?_⟩
  rw [yields_bind (Grows.const _) (hafter (answerAt buf pos n name) h)]
  refine ⟨some h', (yields_const _ _).2 (by rw [storeAnswer_result, hstored]), ?_⟩
  by_cases hle : size ≤ pos + (answerAt buf pos n name).n
  · simp only [afterAnswer, if_pos hle]
    rcases hlast with rfl | hlt
    · exact hrest
    · exact absurd hlt (Nat.not_lt.2 hle)
  · simp only [afterAnswer, if_neg hle]
    exact hrest

theorem answersLoop_records (hat : RecordsAt buf size pos records) (hvalid : ∀ r ∈ records, r.Valid)
    (hfilled : Filled answers last question addrs names h)
    (haddrs : addrs.length + records.length ≤ answers)
    (hnames : names.length + records.length ≤ answers)
    (hroom : neededFrom h.hostLen addrs names (addressRecords records) + 1024 ≤ h.buf.length) :
    ∃ h', Yields (fun fuel => answersLoop fuel buf size answers records.length pos h) (finish h') ∧
      Filled answers last question (((addressRecords records).map Record.data).foldl addNew addrs)
        (((addressRecords records).map Record.owner).foldl addNew names) h' := by
  induction hat generalizing addrs names h with
  | nil => exact ⟨h, ⟨0, rfl⟩, hfilled⟩
  | cons hname htype hlength hdata hinside hrecords ih =>
    rename_i pos n r records
    obtain ⟨hr, hrest⟩ := forall_mem_cons.1 hvalid
    have hspells : Spells buf size pos r.owner n := hname.spells
    have hanswer : answerAt buf pos n r.owner =
        ⟨n + 10 + r.data.length, r.owner, r.type, if r.type = 1 then r.data else []⟩ := by
      rw [answerAt, htype, hlength, hdata]
    have hlast : records.length = 0 ∨ pos + (answerAt buf pos n r.owner).n < size := by
      rw [hanswer]
      by_cases hne : records = []
      · exact .inl (by rw [hne]; rfl)
      · exact .inr (hrecords.lt hne)
    rw [length_cons] at haddrs hnames
    by_cases haddress : r.type = 1
    · -- an A record is kept, and the room that is left is that for the other records
      have hrecs : addressRecords (r :: records) = r :: addressRecords records :=
        filter_cons_of_pos (decide_eq_true haddress)
      rw [if_pos haddress] at hanswer
      rw [hrecs, neededFrom] at hroom
      have hstring : (answerAt buf pos n r.owner).string = r.owner := by
        rw [hanswer]
        exact cstring_bytes hr.owner_nulFree
      have haddr : (answerAt buf pos n r.owner).addr = r.data := by rw [hanswer]
      have hfour : (answerAt buf pos n r.owner).addr.length = 4 := by
        rw [haddr, hr.address haddress]
      have hshort := hr.short
      have hneeded := (Nat.add_le_add_right (le_neededFrom _ _ _ _) _).trans hroom
      have halign := le_align h.hostLen
      have hsize : szNameSize = 512 := rfl
      obtain ⟨hkept, hhostLen⟩ := hfilled.keep (by omega) (by omega) hfour (by rw [hstring]; omega)
        (by rw [hstring]; exact hr.owner_nulFree) (by omega)
      have hstored : h.stored answers (answerAt buf pos n r.owner) =
        some (h.keep answers (answerAt buf pos n r.owner)) := by
        have haccepts : h.Accepts (answerAt buf pos n r.owner) := by
          show h.hostLen + _ + _ < _
          rw [hfour, hstring]
          omega
        have hne : (answerAt buf pos n r.owner).addr ≠ [] := by
          intro hnil
          rw [hnil] at hfour
          cases hfour
        rw [Hostent.stored, if_neg hne, if_pos haccepts]
      rw [haddr, hstring] at hkept hhostLen
      have haddrs' := addNew_length_le addrs r.data
      have hnames' := addNew_length_le names r.owner
      obtain ⟨h', hyields, hfinal⟩ :=
        ih hrest hkept (by omega) (by omega) (by rw [hhostLen, keep_buf_length]; exact hroom)
      refine ⟨h', answersLoop_round hspells hstored hlast ?_, ?_⟩
      · rw [hanswer] at hyields ⊢
        exact hyields
      · rw [hrecs]
        exact hfinal
    · have hrecs : addressRecords (r :: records) = addressRecords records :=
        filter_cons_of_neg (by simp [haddress])
      rw [if_neg haddress] at hanswer
      rw [hrecs] at hroom ⊢
      have hstored : h.stored answers (answerAt buf pos n r.owner) = some h := by
        rw [hanswer, Hostent.stored, if_pos rfl]
      obtain ⟨h', hyields, hfinal⟩ := ih hrest hfilled (by omega) (by omega) hroom
      refine ⟨h', answersLoop_round hspells hstored hlast ?_, hfinal⟩
      rw [hanswer]
      exact hyields

def lastAliasOffset (answers : Nat) : Nat := sizeofHostent + 4 * (answers + 1) + 4 * answers

/-- The function returns 0; `h_name` is the question, and the arrays are lists that NULL ends of the
addresses and of the owners. -/
structure Reported (question : Bytes) (addrs names : List Bytes) (reply : Reply) : Prop where
  ret : reply.1 = 0
  host : ∃ h, reply.2 = some h ∧ h.string h.hName = question ∧
    (∃ offsets, entries h.hAddrList = some offsets ∧
      offsets.map (fun o => (h.buf.drop o).take 4) = addrs) ∧
    ∃ offsets, entries h.hAliases = some offsets ∧ offsets.map h.string = names

theorem newHostent_filled (hname : name.length < szNameSize)
    (hroom : sizeofHostent + 8 * (answers + 1) + szNameSize ≤ hostentBuf.length) :
    Filled answers (pointerAt hostentBuf (lastAliasOffset answers)) name [] []
    (newHostent hostentBuf answers name) := by
  refine ⟨⟨[], ?_, .nil⟩, ⟨[], rfl, .nil⟩, storedAt_strncpy hname hroom, forall_mem_nil _,
    forall_mem_nil _⟩
  show replicate (answers + 1) Pointer.null = replicate answers Pointer.null ++ [Pointer.null]
  exact replicate_succ'

theorem parseDnsResponse_wellFormed (hwell : WellFormed buf size question records)
    (hroom : needed question records + 1024 ≤ hostentBuf.length) {junk : Bytes} :
    ∃ h, Yields (fun fuel => parseDnsResponse fuel buf size hostentBuf junk) (finish h) ∧
      Filled records.length (pointerAt hostentBuf (lastAliasOffset records.length))
      (dotted question)
        ((addressRecords records).map Record.data).eraseDups
        ((addressRecords records).map Record.owner).eraseDups h := by
  obtain ⟨n, hname, -, hrecords⟩ := hwell.body
  have hneeded := (Nat.add_le_add_right (le_neededFrom _ _ _ _) _).trans hroom
  have hshort := hwell.short
  have hsize : szNameSize = 512 := rfl
  have hplace : sizeofHostent + 8 * (records.length + 1) + szNameSize ≤
    hostentBuf.length := by omega
  have hfilled := newHostent_filled (show (dotted question).length < szNameSize by omega) hplace
  have hbuf : (newHostent hostentBuf records.length (dotted question)).buf.length =
    hostentBuf.length :=
    overwrite_length _ _ _
  obtain ⟨h, hyields, hfinal⟩ := answersLoop_records hrecords hwell.valid hfilled (by simp)
    (by simp) (hroom.trans_eq hbuf.symm)
  refine ⟨h, ?_, ?_⟩
  · obtain ⟨m, hm⟩ := hyields
    obtain ⟨enough, henough⟩ := hname.spells.result
    have hmax := (answersLoop_grows buf size records.length records.length (12 + n + 4)
      (newHostent hostentBuf records.length (dotted question))).result m (max m enough) (finish h)
        (Nat.le_max_left _ _) hm
    refine ⟨max m enough, ?_⟩
    dsimp only at hmax hm ⊢
    rw [parseDnsResponse_eq, result_bind, loadShort_result, bind_some, hwell.errcode,
      if_neg (by decide), result_bind,
      loadShort_result, bind_some, result_bind, loadShort_result, bind_some, hwell.questions,
        hwell.answers,
      result_bind, questionsLoop, result_bind, henough (max m enough) (Nat.le_max_right _ _)]
    show (afterQuestions (max m enough) buf size hostentBuf junk records.length
      (12 + n + 4, some (dotted question))).result = _
    have hstring : (cstring (dotted question)).bytes = dotted question :=
      cstring_bytes (dotted_nulFree hwell.nulFree)
    rw [afterQuestions, result_bind, result_emit, bind_some]
    show (fillHostent (max m enough) buf size hostentBuf records.length (12 + n + 4)
      (cstring (dotted question)).bytes).result = _
    rw [hstring, fillHostent, if_neg (by omega)]
    simp only [result_bind, result_emit, bind_some]
    rw [hmax, hm]
  · rwa [foldl_addNew, foldl_addNew] at hfinal

theorem pointerAt_ne_null (h : pointerAt hostentBuf offset ≠ .null) :
    pointerAt hostentBuf offset = .stale := by
  unfold pointerAt at h ⊢
  exact if_neg fun hzero => h (if_pos hzero)

theorem eraseDups_length_le (l : List Bytes) : l.eraseDups.length ≤ l.length := by
  induction l using reverseRecOn with
  | nil => rfl
  | append_singleton l a ih =>
    have hadd := addNew_length_le l.eraseDups a
    rw [← addNew_eraseDups, length_append]
    exact hadd.trans (Nat.succ_le_succ ih)

/-- The lists of a filled result are complete unless every entry of `h_aliases` is filled and no
NULL lay behind them. -/
theorem Filled.reported_iff {answers : Nat} {last : Pointer} {name : Bytes}
    (hfilled : Filled answers last name addrs names h) (hname : 0 ∉ name) (haddrs : addrs ≠ [])
    (hlength : names.length ≤ answers) (hlast : last ≠ .null → last = .stale) :
    Reported name addrs names (finish h) ↔ names.length < answers ∨ last = .null := by
  obtain ⟨offsets, hlist, hall⟩ := hfilled.addresses
  obtain ⟨offsets', hlist', hall'⟩ := hfilled.aliases
  have heq := hall'.length_eq
  constructor
  · rintro ⟨-, h', hh', -, -, found, hfound, -⟩
    cases hh'
    by_contra hnot
    rw [not_or, Nat.not_lt] at hnot
    have hfull : answers = offsets'.length := by omega
    rw [hlist', hfull, hlast hnot.2] at hfound
    simp [slotsOf, entries_append, entries] at hfound
  · intro hends
    refine ⟨?_, h, rfl, ?_, ⟨offsets, ?_, ?_⟩, offsets', ?_, ?_⟩
    · cases hall with
      | nil => exact absurd rfl haddrs
      | cons _ _ =>
        show (if h.hAddrList.head? = some .null then (-5 : Int) else 0) = 0
        rw [hlist]
        rfl
    · exact string_of_stored hfilled.name hname
    · rw [hlist, entries_slotsOf (.inr rfl)]
    · exact forall₂_map hall fun o a ha hstored => by rw [← hfilled.four a ha, hstored.content]
    · rw [hlist', entries_slotsOf (heq ▸ hends)]
    · exact forall₂_map hall' fun o s hs hstored => string_of_stored hstored (hfilled.strings s hs)

/-- A well-formed response with an address is reported exactly when some record adds no owner, or
the entry behind those of `h_aliases` was NULL before the call. -/
theorem response_reported_iff (hwell : WellFormed buf size question records)
    (haddress : ∃ r ∈ records, r.type = 1)
    (hroom : needed question records + 1024 ≤ hostentBuf.length) (junk : Bytes) :
    (∃ fuel reply, (parseDnsResponse fuel buf size hostentBuf junk).result = some reply ∧
      Reported (dotted question) ((addressRecords records).map Record.data).eraseDups
        ((addressRecords records).map Record.owner).eraseDups reply) ↔
      ((addressRecords records).map Record.owner).eraseDups.length < records.length ∨
        pointerAt hostentBuf (lastAliasOffset records.length) = .null := by
  obtain ⟨h, hyields, hfilled⟩ := parseDnsResponse_wellFormed hwell hroom
  have haddrs : ((addressRecords records).map Record.data).eraseDups ≠ [] := by
    obtain ⟨r, hr, htype⟩ := haddress
    have hmem : r.data ∈ ((addressRecords records).map Record.data).eraseDups :=
      mem_eraseDups.2 (mem_map_of_mem (mem_filter.2 ⟨hr, decide_eq_true htype⟩))
    exact ne_nil_of_mem hmem
  have hlength : ((addressRecords records).map Record.owner).eraseDups.length ≤ records.length := by
    refine (eraseDups_length_le _).trans ?_
    rw [length_map]
    exact length_filter_le _ _
  rw [← hfilled.reported_iff (dotted_nulFree hwell.nulFree) haddrs hlength pointerAt_ne_null]
  constructor
  · rintro ⟨fuel, reply, hreply, hreported⟩
    have heq := (parseDnsResponse_grows buf size hostentBuf junk).yields_unique
      ⟨fuel, hreply⟩ hyields
    rwa [heq] at hreported
  · intro hreported
    obtain ⟨fuel, hfuel⟩ := hyields
    exact ⟨fuel, finish h, hfuel, hreported⟩

def memoryOf (response : Bytes) : Memory := fun i => response.getD i 0

/-- The question `a`, and an A record for it whose name is a pointer. -/
def oneAddress : Bytes :=
  [0, 1, 0x81, 0x80, 0, 1, 0, 1, 0, 0, 0, 0] ++ [1, 97, 0, 0, 1, 0, 1] ++
    [0xc0, 12, 0, 1, 0, 1, 0, 0, 0, 60, 0, 4, 10, 0, 0, 1]

def twoAddresses : Bytes :=
  [0, 1, 0x81, 0x80, 0, 1, 0, 2, 0, 0, 0, 0] ++ [1, 97, 0, 0, 1, 0, 1] ++
    [0xc0, 12, 0, 1, 0, 1, 0, 0, 0, 60, 0, 4, 10, 0, 0, 1] ++ [0xc0, 12, 0, 1, 0, 1, 0, 0, 0, 60, 0,
      4, 10, 0, 0, 2]

def addressOf (last : UInt8) : Record := ⟨[[97]], 1, [10, 0, 0, last]⟩

theorem addressOf_valid (last : UInt8) : (addressOf last).Valid := by
  have hshort : (dotted [[97]]).length < 256 := by decide +kernel
  refine ⟨?_, hshort, fun _ => rfl⟩
  intro label hlabel
  rw [mem_singleton.1 hlabel]
  decide

theorem oneAddress_wellFormed : WellFormed (memoryOf oneAddress) oneAddress.length [[97]]
    [addressOf 1] := by
  have ha : NameAt (memoryOf oneAddress) oneAddress.length 12 [[97]] 3 :=
    @NameAt.label _ _ 12 [97] [] 1 ⟨by decide, by decide⟩ rfl rfl (.root (by decide) rfl)
  refine ⟨by decide +kernel, by decide +kernel, by decide +kernel, ⟨3, ha, by decide, ?_⟩,
    ?_, by decide +kernel, ?_⟩
  · exact .cons (n := 2) (.pointer (by decide) rfl (by decide) ha) (by decide +kernel)
      (by decide +kernel) (by decide +kernel) (by decide) .nil
  · exact (addressOf_valid 1).nulFree
  · exact forall_mem_singleton.2 (addressOf_valid 1)

theorem twoAddresses_wellFormed :
    WellFormed (memoryOf twoAddresses) twoAddresses.length [[97]] [addressOf 1, addressOf 2] := by
  have ha : NameAt (memoryOf twoAddresses) twoAddresses.length 12 [[97]] 3 :=
    @NameAt.label _ _ 12 [97] [] 1 ⟨by decide, by decide⟩ rfl rfl (.root (by decide) rfl)
  refine ⟨by decide +kernel, by decide +kernel, by decide +kernel, ⟨3, ha, by decide, ?_⟩,
    ?_, by decide +kernel, ?_⟩
  · refine .cons (n := 2) (.pointer (by decide) rfl (by decide) ha) (by decide +kernel)
      (by decide +kernel) (by decide +kernel) (by decide) ?_
    exact .cons (n := 2) (.pointer (by decide) rfl (by decide) ha) (by decide +kernel)
      (by decide +kernel) (by decide +kernel) (by decide) .nil
  · exact (addressOf_valid 1).nulFree
  · exact forall_mem_cons.2 ⟨addressOf_valid 1, forall_mem_singleton.2 (addressOf_valid 2)⟩

def usedBuffer : Bytes := replicate 2048 255

/-- Two addresses of one owner are reported in such a buffer. -/
theorem response_reported_iff_shared :
    WellFormed (memoryOf twoAddresses) twoAddresses.length [[97]] [addressOf 1, addressOf 2] ∧
    needed [[97]] [addressOf 1, addressOf 2] + 1024 ≤ usedBuffer.length ∧
    ∃ fuel reply, (parseDnsResponse fuel (memoryOf twoAddresses) twoAddresses.length usedBuffer
    []).result = some reply ∧
      Reported (dotted [[97]]) ((addressRecords [addressOf 1, addressOf 2]).map
      Record.data).eraseDups
        ((addressRecords [addressOf 1, addressOf 2]).map Record.owner).eraseDups reply := by
  have hroom : needed [[97]] [addressOf 1, addressOf 2] + 1024 ≤ usedBuffer.length := by
    rw [usedBuffer, length_replicate]
    decide +kernel
  refine ⟨twoAddresses_wellFormed, hroom, ?_⟩
  exact (response_reported_iff twoAddresses_wellFormed ⟨addressOf 1, mem_cons_self, rfl⟩ hroom []).2
    (.inl (by decide +kernel))

/-- One address in the same buffer is not: nothing ends `h_aliases`. -/
theorem aliases_without_end : WellFormed (memoryOf oneAddress) oneAddress.length [[97]]
    [addressOf 1] ∧ needed [[97]] [addressOf 1] + 1024 ≤ usedBuffer.length ∧
    ¬∃ fuel reply, (parseDnsResponse fuel (memoryOf oneAddress) oneAddress.length usedBuffer
    []).result = some reply ∧
      Reported (dotted [[97]]) ((addressRecords [addressOf 1]).map Record.data).eraseDups
        ((addressRecords [addressOf 1]).map Record.owner).eraseDups reply := by
  have hroom : needed [[97]] [addressOf 1] + 1024 ≤ usedBuffer.length := by
    rw [usedBuffer, length_replicate]
    decide +kernel
  refine ⟨oneAddress_wellFormed, hroom, ?_⟩
  rintro ⟨fuel, reply, hreply, hreported⟩
  obtain ⟨h, hyields, hfilled⟩ := parseDnsResponse_wellFormed oneAddress_wellFormed hroom
  have heq := (parseDnsResponse_grows _ _ _ _).yields_unique ⟨fuel, hreply⟩ hyields
  rw [heq, hfilled.reported_iff (by decide +kernel) (by decide +kernel)
    (by decide +kernel) pointerAt_ne_null] at hreported
  revert hreported
  decide +kernel

end SwApi.Dns
