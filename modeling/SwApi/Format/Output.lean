import SwApi.Format.Model

/-! What a format prints into a buffer with room for it. Formats compose: each part prints its
own bytes, whatever the rest of the format is. -/
namespace SwApi.Format
open Library List

section
variable {b : Buffer}

theorem puts_nil : b.puts [] = b := rfl

theorem puts_cons : b.puts (c :: s) = (b.put c).puts s := rfl

theorem puts_append : b.puts (s ++ s') = (b.puts s).puts s' :=
  foldl_append

@[simp] theorem put_str (b : Buffer) (c : UInt8) : (b.put c).str = b.str + 1 := rfl

@[simp] theorem put_length (b : Buffer) (c : UInt8) : (b.put c).mem.length = b.mem.length := by
  unfold Buffer.put
  dsimp only
  split
  · rw [length_set]
  · rfl

@[simp] theorem puts_str (b : Buffer) (s : Bytes) : (b.puts s).str = b.str + s.length := by
  induction s generalizing b with
  | nil => rfl
  | cons c s ih =>
    rw [puts_cons, ih, put_str, length_cons]
    omega

@[simp] theorem puts_length (b : Buffer) (s : Bytes) : (b.puts s).mem.length = b.mem.length := by
  induction s generalizing b with
  | nil => rfl
  | cons c s ih => rw [puts_cons, ih, put_length]

theorem store_eq_put (h : b.str < b.mem.length) : b.store c = .ok (b.put c) := by
  rw [Buffer.store, if_pos h, Buffer.put, if_pos h]

theorem puts_take (h : b.str + s.length ≤ b.mem.length) :
    (b.puts s).mem.take (b.str + s.length) = b.mem.take b.str ++ s := by
  induction s generalizing b with
  | nil => simp [puts_nil]
  | cons c s ih =>
    rw [length_cons] at h
    have hput : (b.put c).mem.take (b.str + 1) = b.mem.take b.str ++ [c] := by
      rw [Buffer.put, if_pos (by omega)]
      simp [take_add_one, take_set_of_le, show b.str < b.mem.length by omega]
    have hrest := ih (b := b.put c) (by rw [put_str, put_length]; omega)
    rw [put_str, hput] at hrest
    rw [puts_cons, length_cons, show b.str + (s.length + 1) = b.str + 1 + s.length by omega, hrest,
      append_assoc, singleton_append]

theorem put_counts : { b with counts := counts }.put c = { b.put c with counts := counts } := rfl

theorem puts_counts : { b with counts := counts }.puts s = { b.puts s with counts := counts } := by
  induction s generalizing b with
  | nil => rfl
  | cons c s ih => rw [puts_cons, put_counts, ih, ← puts_cons]

end

theorem skipAtoi_length (fmt : Bytes) (i : Nat) : (skipAtoi fmt i).2.length ≤ fmt.length := by
  induction fmt generalizing i with
  | nil => exact le_rfl
  | cons c fmt ih =>
    rw [skipAtoi]
    split
    · exact (ih _).trans (Nat.le_succ _)
    · exact le_rfl

theorem atoi_length (h : atoi fmt = .ok (n, fmt')) : fmt'.length ≤ fmt.length := by
  have hskip := skipAtoi_length fmt 0
  unfold atoi at h
  dsimp only at h
  split at h
  · cases h
    exact hskip
  · cases h

theorem skipFlags_length (fmt : Bytes) (f : Flags) : (skipFlags fmt f).2.length ≤ fmt.length := by
  induction fmt generalizing f with
  | nil => exact le_rfl
  | cons c fmt ih =>
    have hle (f : Flags) : (skipFlags fmt f).2.length ≤ (c :: fmt).length :=
      (ih f).trans (Nat.le_succ _)
    rw [skipFlags]
    repeat' split
    all_goals first | exact hle _ | exact le_rfl

theorem fieldWidth_length (h : fieldWidth fmt args f = .ok (n, f', fmt', args')) :
    fmt'.length ≤ fmt.length := by
  have htail : fmt.tail.length ≤ fmt.length := by simp
  unfold fieldWidth at h
  split at h
  · obtain ⟨⟨width, fmt₁⟩, hatoi, h⟩ := bind_eq_ok.1 h
    cases h
    exact atoi_length hatoi
  · split at h
    · obtain ⟨⟨width, args₁⟩, -, h⟩ := bind_eq_ok.1 h
      dsimp only at h
      split at h
      · cases h
        exact htail
      · cases h
        exact htail
    · cases h
      exact le_rfl

theorem getPrecision_length (h : getPrecision fmt args = .ok (n, fmt', args')) :
    fmt'.length ≤ fmt.length := by
  have htail : fmt.tail.length ≤ fmt.length := by simp
  have htail' : fmt.tail.tail.length ≤ fmt.tail.length := by simp
  unfold getPrecision at h
  split at h
  · dsimp only at h
    split at h
    · obtain ⟨⟨width, fmt₁⟩, hatoi, h⟩ := bind_eq_ok.1 h
      cases h
      exact (atoi_length hatoi).trans htail
    · split at h
      · obtain ⟨⟨width, args₁⟩, -, h⟩ := bind_eq_ok.1 h
        cases h
        exact htail'.trans htail
      · cases h
        exact htail
  · cases h
    exact le_rfl

theorem getQualifier_length : (getQualifier fmt).2.length ≤ fmt.length := by
  unfold getQualifier
  split
  · split
    · simp
      omega
    · simp
  · exact le_rfl

theorem directive_length (h : directive e fmt args b = .ok (fmt', args', b')) :
    fmt'.length ≤ fmt.length := by
  obtain ⟨⟨width, f, fmt₁, args₁⟩, hwidth, h⟩ := bind_eq_ok.1 h
  obtain ⟨⟨precision, fmt₂, args₂⟩, hprecision, h⟩ := bind_eq_ok.1 h
  obtain ⟨⟨args₃, b₁⟩, -, h⟩ := bind_eq_ok.1 h
  cases h
  calc (getQualifier fmt₂).2.tail.length
    _ ≤ (getQualifier fmt₂).2.length := by simp
    _ ≤ fmt₂.length := getQualifier_length
    _ ≤ fmt₁.length := getPrecision_length hprecision
    _ ≤ (skipFlags fmt {}).2.length := fieldWidth_length hwidth
    _ ≤ fmt.length := skipFlags_length fmt {}

theorem printLoop_fuel (h : fmt.length ≤ fuel) :
    printLoop e fuel fmt args b = printLoop e fmt.length fmt args b := by
  induction fuel using Nat.strong_induction_on generalizing fmt args b with
  | _ fuel ih =>
  cases fuel with
  | zero =>
    have hnil := eq_nil_of_length_eq_zero (Nat.le_zero.1 h)
    subst hnil
    rfl
  | succ fuel =>
    cases fmt with
    | nil => rfl
    | cons c fmt =>
      rw [length_cons] at h
      rw [length_cons, printLoop, printLoop]
      split
      · exact ih fuel (by omega) (by omega)
      · cases hdirective : directive e fmt args b with
        | error stop => rfl
        | ok r =>
          obtain ⟨fmt', args', b'⟩ := r
          have hle := directive_length hdirective
          rw [ok_bind, ok_bind]
          dsimp only
          rw [ih fuel (by omega) (by omega), ih fmt.length (by omega) hle]

def printAll (e : Escape) (fmt : Bytes) (args : List Arg) (b : Buffer) : Attempt Buffer :=
  printLoop e fmt.length fmt args b

/-- The part `fmt` of a format takes the arguments `args` and prints `out`, if there is room. -/
def Prints (e : Escape) (fmt : Bytes) (args : List Arg) (out : Bytes) : Prop :=
  ∀ rest more b, b.str + out.length < b.mem.length →
    ∃ counts, printAll e (fmt ++ rest) (args ++ more) b =
      printAll e rest more { b.puts out with counts := counts }

theorem Prints.nil (e : Escape) : Prints e [] [] [] := by
  intro rest more b _
  exact ⟨b.counts, rfl⟩

theorem Prints.append (h : Prints e fmt args out) (h' : Prints e fmt' args' out') :
    Prints e (fmt ++ fmt') (args ++ args') (out ++ out') := by
  intro rest more b hroom
  rw [length_append] at hroom
  obtain ⟨counts, hfirst⟩ := h (fmt' ++ rest) (args' ++ more) b (by omega)
  obtain ⟨counts', hsecond⟩ := h' rest more { b.puts out with counts := counts }
    (by simp only [puts_str, puts_length]; omega)
  refine ⟨counts', ?_⟩
  rw [append_assoc, append_assoc, hfirst, hsecond, puts_counts, puts_append]

theorem Prints.literal (hc : c ≠ 37) : Prints e [c] [] [c] := by
  intro rest more b _
  refine ⟨b.counts, ?_⟩
  rw [printAll, singleton_append, nil_append, length_cons, printLoop, if_pos hc]
  rfl

theorem Prints.text (h : ∀ c ∈ fmt, c ≠ 37) : Prints e fmt [] fmt := by
  induction fmt with
  | nil => exact .nil e
  | cons c fmt ih =>
    exact (Prints.literal (h c mem_cons_self)).append (ih (forall_mem_cons.1 h).2)

theorem Prints.directive (h : ∀ rest more b, b.str + out.length < b.mem.length →
      directive e (fmt ++ rest) (args ++ more) b = .ok (rest, more, b.puts out)) :
    Prints e (37 :: fmt) args out := by
  intro rest more b hroom
  refine ⟨(b.puts out).counts, ?_⟩
  rw [printAll, cons_append, length_cons, printLoop, if_neg (by simp), h rest more b hroom, ok_bind]
  exact printLoop_fuel (by simp)

def Escape.encode (e : Escape) (code : UInt8 → Bytes) (s : Bytes) : Bytes :=
  s.flatMap fun c => if e.special c then code c else [c]

def Escape.Emits (e : Escape) (code : UInt8 → Bytes) : Prop :=
  ∀ c b, b.str + (code c).length < b.mem.length → e.emit c b = .ok (some (b.puts (code c)))

theorem copyLoop_escaped (he : e.Emits code) (hroom : b.str + (e.encode code s).length <
    b.mem.length) : copyLoop e true s b = .ok (b.puts (e.encode code s)) := by
  induction s generalizing b with
  | nil => rfl
  | cons c s ih =>
    have hcode : e.encode code (c :: s) = (if e.special c then code c else [c]) ++ e.encode code
      s := rfl
    rw [hcode, length_append] at hroom
    rw [copyLoop, if_pos (by omega), hcode, puts_append, Bool.true_and]
    split at hroom
    · rename_i hspecial
      rw [if_pos hspecial, if_pos hspecial, he c b (by omega), ok_bind]
      exact ih (by rw [puts_str, puts_length]; omega)
    · rename_i hspecial
      rw [length_singleton] at hroom
      rw [if_neg hspecial, if_neg hspecial, store_eq_put (by omega), ok_bind]
      exact ih (by rw [put_str, put_length]; omega)

theorem copyLoop_plain (hroom : b.str + s.length < b.mem.length) :
    copyLoop e false s b = .ok (b.puts s) := by
  induction s generalizing b with
  | nil => rfl
  | cons c s ih =>
    rw [length_cons] at hroom
    rw [copyLoop, if_pos (by omega), Bool.false_and, if_neg Bool.false_ne_true,
      store_eq_put (by omega), ok_bind, puts_cons]
    exact ih (by rw [put_str, put_length]; omega)

def isLetter (c : UInt8) : Bool :=
  c ∉ ([45, 43, 32, 35, 48, 42, 46, 104, 108, 76, 90, 122, 116] : Bytes) && !isdigit c

theorem directive_letter (hc : isLetter c = true) : directive e (c :: rest) args b =
      convert e c {} (-1) (-1) 0 args b >>= fun r => .ok (rest, r.1, r.2) := by
  simp only [isLetter, List.mem_cons, not_mem_nil, or_false, not_or, Bool.and_eq_true,
    decide_eq_true_eq, Bool.not_eq_true'] at hc
  obtain ⟨⟨h45, h43, h32, h35, h48, h42, h46, h104, h108, h76, h90, h122, h116⟩, hdigit⟩ := hc
  have hflags : skipFlags (c :: rest) {} = ({}, c :: rest) := by
    rw [skipFlags, if_neg h45, if_neg h43, if_neg h32, if_neg h35, if_neg h48]
  have hwidth : fieldWidth (c :: rest) args {} = .ok (-1, {}, c :: rest, args) := by
    simp [fieldWidth, peek, hdigit, h42]
  have hprecision : getPrecision (c :: rest) args = .ok (-1, c :: rest, args) := by
    simp [getPrecision, peek, h46]
  have hqualifier : getQualifier (c :: rest) = (0, c :: rest) := by
    simp [getQualifier, peek, h104, h108, h76, h90, h122, h116]
  simp only [directive, hflags, hwidth, ok_bind, hprecision, hqualifier]
  rfl

theorem printString_plain (hcopy : copyLoop e escaped s b = .ok (b.puts out)) :
    printString e escaped {} (-1) (-1) s b = .ok (b.puts out) := by
  have hpad : ((-1 : Int) - s.length).toNat = 0 := by omega
  simp [printString, hpad, puts_nil, hcopy]

theorem Prints.string {code : UInt8 → Bytes} (he : e.Emits code) {addr : UInt32}
    (haddr : ¬addr.toNat < pageSize) (s : CString) :
    Prints e [37, 115] [.text addr s] (e.encode code s.bytes) := by
  apply Prints.directive
  intro rest more b hroom
  have hprint := printString_plain (copyLoop_escaped he hroom)
  rw [singleton_append, singleton_append, directive_letter (by decide), convert,
    if_neg (by decide), if_pos (by decide), textArg, if_neg haddr]
  simp [hprint]

theorem Prints.rawString {addr : UInt32} (haddr : ¬addr.toNat < pageSize) (s : CString) :
    Prints e [37, 83] [.text addr s] s.bytes := by
  apply Prints.directive
  intro rest more b hroom
  have hprint : printString e false {} (-1) (-1) s.bytes b = _ :=
    printString_plain (copyLoop_plain hroom)
  rw [singleton_append, singleton_append, directive_letter (by decide), convert,
    if_neg (by decide), if_pos (by decide), textArg, if_neg haddr]
  simp [hprint]

theorem Prints.decimal (w : UInt32) :
    Prints e [37, 100] [.word w] (number (signExtend 32 w.toNat) 10 (-1) (-1)
    { sign := true }) := by
  apply Prints.directive
  intro rest more b _
  have hconvert : convert e 100 {} (-1) (-1) 0 (.word w :: more) b =
      printNumber { sign := true } (-1) (-1) 0 10 (.word w :: more) b := rfl
  have hnum : numArg 0 { sign := true } (.word w :: more) = .ok (signExtend 32 w.toNat, more) := by
    simp [numArg, wordArg]
  rw [singleton_append, singleton_append, directive_letter (by decide), hconvert, printNumber, hnum]
  simp

theorem Prints.vsnprintf {fmt : CString} (h : Prints e fmt.bytes args out)
    (hroom : out.length < mem.length) (hsize : mem.length < 2 ^ 31) :
    ∃ b, vsnprintf e mem fmt args = .ok b ∧ b.str = out.length ∧ b.mem.take out.length = out ∧
      b.mem[out.length]? = some 0 := by
  obtain ⟨counts, hprint⟩ := h [] [] ⟨mem, 0, []⟩ (by dsimp only; omega)
  rw [append_nil, append_nil] at hprint
  have hint : int32 mem.length = mem.length := int32_eq (by omega) (by omega)
  have htake := puts_take (b := ⟨mem, 0, []⟩) (s := out) (by dsimp only; omega)
  have hstr := puts_str ⟨mem, 0, []⟩ out
  have hlength := puts_length ⟨mem, 0, []⟩ out
  dsimp only at htake hstr hlength
  rw [Nat.zero_add, take_zero, nil_append] at htake
  rw [Nat.zero_add] at hstr
  refine ⟨⟨(Buffer.puts ⟨mem, 0, []⟩ out).mem.set out.length 0, out.length, counts⟩, ?_, rfl, ?_,
    ?_⟩
  · rw [Format.vsnprintf, if_neg (by omega), show printLoop e fmt.bytes.length fmt.bytes args
      ⟨mem, 0, []⟩ = .ok _ from hprint, ok_bind, if_pos (by dsimp only; omega), hstr]
  · rw [take_set_of_le le_rfl, htake]
  · rw [getElem?_set_self (by omega)]

end SwApi.Format
