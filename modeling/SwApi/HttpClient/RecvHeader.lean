import SwApi.Library.Bytes
import SwApi.Library.Line

/-! `sw_httpclient_recv_header`: the bytes of a response up to its blank line. -/
namespace SwApi.HttpClient
open Library List

/-- `rlen` behind a receive that has not ended the header. -/
def nextLen (size : Int) (buf : Bytes) : Nat :=
  let rlen : Nat := if [13, 10, 13] <:+ buf then 1 else if [13, 10] <:+ buf then 2
    else if [13] <:+ buf then 3 else 4
  if rlen ≤ (buf.length : Int) - size then rlen else 1

/-- The bytes stored so far, and what is left on the socket. Every receive stores a byte, or is the
last one. -/
def headerLoop (size : Int) : Nat → Line UInt8 → Bytes → Nat → Bytes × Line UInt8
  | 0, l, buf, _ => (buf, l)
  | fuel+1, l, buf, rlen =>
      if buf.length < size then
        let (r, l) := l.recv rlen
        if r = [] then (buf, l)
        else if (buf ++ r).length < 4 then headerLoop size fuel l (buf ++ r) rlen
        else if crlfCrlf <:+ buf ++ r then (buf ++ r, l)
        else headerLoop size fuel l (buf ++ r) (nextLen size (buf ++ r))
      else (buf, l)

/-- The result is the number of the bytes that are stored. -/
def swHttpclientRecvHeader (size : Int) (l : Line UInt8) : Bytes × Line UInt8 :=
  if size ≤ 20 then ([], l) else headerLoop size size.toNat l [] 16

variable {size : Int} {buf : Bytes} {l : Line UInt8} {fuel : Nat}

/-- `p` is never behind `end`, so that nothing is left of the lengths. -/
theorem nextLen_eq (h : buf.length ≤ size) : nextLen size buf = 1 := by
  rw [nextLen]
  split_ifs <;> omega

/-- Sixteen bytes are asked for before the fourth one is there, and then single ones. -/
def Asks (buf : Bytes) (rlen : Nat) : Prop := rlen = 16 ∧ buf.length < 4 ∨ rlen = 1

theorem headerLoop_length (hsize : 20 < size) (hasks : Asks buf rlen)
    (h : buf.length ≤ size) : (headerLoop size fuel l buf rlen).1.length ≤ size := by
  induction fuel generalizing l buf rlen with
  | zero => exact h
  | succ fuel ih =>
    have hlength := l.recv_length rlen
    have hroom (hlt : buf.length < size) : (buf ++ (l.recv rlen).1).length ≤ size := by
      rw [length_append]
      rcases hasks with hasks | hasks <;> omega
    simp only [headerLoop]
    split_ifs with hlt hnil hfew hend
    · exact h
    · exact ih (hasks.imp_left fun hasks => ⟨hasks.1, hfew⟩) (hroom hlt)
    · exact hroom hlt
    · exact ih (.inr (nextLen_eq (hroom hlt))) (hroom hlt)
    · exact h

theorem headerLoop_eq {header body : Bytes} (hsize : header.length ≤ size)
    (hlong : 19 ≤ header.length)
    (hend : crlfCrlf <:+ header) (hfirst : ∀ n < header.length, ¬crlfCrlf <:+ header.take n)
    (hflows : l.Flows) (hasks : Asks buf rlen) (hfuel : size ≤ buf.length + fuel)
    (hlt : buf.length < header.length) (h : buf ++ l.bytes = header ++ body) :
    ∃ l', headerLoop size fuel l buf rlen = (header, l') ∧ l'.bytes = body := by
  induction fuel generalizing l buf rlen with
  | zero => omega
  | succ fuel ih =>
    have hlength := l.recv_length rlen
    have hpos : 0 < rlen := by rcases hasks with hasks | hasks <;> omega
    have hleft : l.bytes ≠ [] := by
      intro hnil
      have := congrArg List.length h
      rw [hnil, append_nil, length_append] at this
      omega
    have hne := Line.recv_ne_nil hflows.head hpos hleft
    have hsplit : (buf ++ (l.recv rlen).1) ++ (l.recv rlen).2.bytes = header ++ body := by
      rw [append_assoc, l.recv_append, h]
    have hle : (buf ++ (l.recv rlen).1).length ≤ header.length := by
      rw [length_append]
      rcases hasks with hasks | hasks <;> omega
    have hmore : buf.length < (buf ++ (l.recv rlen).1).length := by
      rw [length_append]
      have := length_pos_iff.2 hne
      omega
    have hpre : buf ++ (l.recv rlen).1 <+: header :=
      prefix_of_prefix_length_le ⟨_, hsplit⟩ ⟨_, rfl⟩ hle
    simp only [headerLoop, if_pos (show (buf.length : Int) < size by omega), if_neg hne]
    split_ifs with hfew hblank
    · exact ih (hflows.recv _) (hasks.imp_left fun hasks => ⟨hasks.1, hfew⟩) (by omega)
        (by omega) hsplit
    · have hwhole : (buf ++ (l.recv rlen).1).length = header.length := by
        by_contra hshort
        rw [prefix_iff_eq_take.1 hpre] at hblank
        exact hfirst _ (by omega) hblank
      rw [hpre.eq_of_length hwhole] at hsplit ⊢
      exact ⟨_, rfl, append_cancel_left hsplit⟩
    · have hlt' : (buf ++ (l.recv rlen).1).length ≠ header.length := by
        intro heq
        rw [hpre.eq_of_length heq] at hblank
        exact hblank hend
      exact ih (hflows.recv _) (.inr (nextLen_eq (by omega))) (by omega) (by omega) hsplit

/-- However the response arrives, its header is stored and its body is left; nothing is ever stored
behind the buffer. -/
theorem recvHeader_spec (size : Int) (l : Line UInt8) :
    (∀ i < (swHttpclientRecvHeader size l).1.length, i < size) ∧
      ∀ header body : Bytes, 20 < size → l.bytes = header ++ body → l.Flows → crlfCrlf <:+ header →
        (∀ n < header.length, ¬crlfCrlf <:+ header.take n) → 19 ≤ header.length →
        header.length ≤ size →
        ∃ l', swHttpclientRecvHeader size l = (header, l') ∧ l'.bytes = body := by
  have hasks : Asks [] 16 := .inl ⟨rfl, by decide⟩
  have hzero : ([] : Bytes).length = 0 := rfl
  rw [swHttpclientRecvHeader]
  constructor
  · intro i hi
    split_ifs at hi with hsize
    · cases hi
    · exact Int.lt_of_lt_of_le (Int.ofNat_lt.2 hi)
        (headerLoop_length (Int.not_le.1 hsize) hasks (by omega))
  · intro header body hsize hbytes hflows hend hfirst hlong hle
    rw [if_neg (Int.not_le.2 hsize)]
    exact headerLoop_eq hle hlong hend hfirst hflows hasks (by omega) (by omega) hbytes

/-- A status line in pieces of three bytes and more, and two bytes of a body. -/
theorem recvHeader_spec_pieces : ∃ l', swHttpclientRecvHeader 64
    ⟨[72, 84, 84, 80, 47, 49, 46, 49, 32, 50, 48, 48,
    32, 79, 75, 13, 10, 13, 10] ++ [104, 105], [some 2, some 15]⟩ =
      ([72, 84, 84, 80, 47, 49, 46, 49, 32, 50, 48, 48, 32, 79, 75, 13, 10, 13, 10], l') ∧
      l'.bytes = [104, 105] :=
  (recvHeader_spec 64 _).2 _ _ (by decide) rfl (by simp [Line.Flows]) (by decide) (by decide)
    (by decide) (by decide)

end SwApi.HttpClient
