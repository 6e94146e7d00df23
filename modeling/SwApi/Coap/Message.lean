import SwApi.Library.Bytes
import SwApi.Library.Nibble

/-! Messages of RFC 7252 as `coap.h` describes them, without a bound on the number of options. An
option is given by the distance of its number from that of the option before it, and by its
value. -/
namespace SwApi.Coap
open Library List

structure Message where
  t : Nat
  code : UInt8
  id : UInt8 × UInt8
  token : Bytes
  options : List (Nat × Bytes)
  payload : Bytes

structure Message.Valid (m : Message) : Prop where
  t : m.t < 4
  token : m.token.length ≤ 8
  options : ∀ o ∈ m.options, o.1 ≤ Nibble.limit ∧ o.2.length ≤ Nibble.limit

def encodeOption (o : Nat × Bytes) : Bytes :=
  UInt8.ofNat (Nibble.nibble o.1 * 16 + Nibble.nibble o.2.length) ::
    (Nibble.extension o.1 ++ (Nibble.extension o.2.length ++ o.2))

def encodePayload (payload : Bytes) : Bytes := if payload = [] then [] else 0xFF :: payload

def Message.encode (m : Message) : Bytes :=
  [UInt8.ofNat (64 + m.t * 16 + m.token.length), m.code, m.id.1, m.id.2] ++
    (m.token ++ (m.options.flatMap encodeOption ++ encodePayload m.payload))

def numbered : Nat → List (Nat × Bytes) → List (Nat × Bytes)
  | _, [] => []
  | base, o :: options => (base + o.1, o.2) :: numbered (base + o.1) options

def distances : Nat → List (Nat × Bytes) → List (Nat × Bytes)
  | _, [] => []
  | base, o :: options => (o.1 - base, o.2) :: distances o.1 options

structure Message.Fits (m : Message) : Prop where
  count : m.options.length ≤ 16
  numbers : ∀ o ∈ numbered 0 m.options, o.1 < 256
  lengths : ∀ o ∈ m.options, o.2.length < 2 ^ 16

theorem numbered_distances (h : (base :: options.map Prod.fst).Pairwise (· ≤ ·)) :
    numbered base (distances base options) = options := by
  induction options generalizing base with
  | nil => rfl
  | cons o options ih =>
    obtain ⟨hbase, hrest⟩ := pairwise_cons.1 h
    have hle : base ≤ o.1 := hbase _ mem_cons_self
    rw [distances, numbered, show base + (o.1 - base) = o.1 by omega, ih hrest]

theorem distances_length (base : Nat) (options : List (Nat × Bytes)) :
    (distances base options).length = options.length := by
  induction options generalizing base with
  | nil => rfl
  | cons o options ih => exact congrArg (· + 1) (ih _)

theorem distances_mem (h : o ∈ distances base options) : ∃ o' ∈ options, o.1 ≤ o'.1 ∧
    o.2 = o'.2 := by
  induction options generalizing base with
  | nil => cases h
  | cons x options ih =>
    rcases mem_cons.1 h with rfl | h
    · exact ⟨x, mem_cons_self, Nat.sub_le _ _, rfl⟩
    · obtain ⟨o', ho', hle⟩ := ih h
      exact ⟨o', mem_cons_of_mem _ ho', hle⟩

end SwApi.Coap
