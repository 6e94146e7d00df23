import Mathlib.Tactic.Common

/-! Computations that deliver a result, fail and say so, or do something undefined. -/
namespace SwApi.Library

inductive Stop where
  | undefined
  | failed
deriving DecidableEq

abbrev Attempt (α : Type) := Except Stop α

/-- What is read may not be there. -/
def Attempt.ofOption : Option α → Attempt α
  | some a => .ok a
  | none => .error .undefined

@[simp] theorem ofOption_some (a : α) : Attempt.ofOption (some a) = .ok a := rfl

@[simp] theorem ok_bind (a : α) (f : α → Except ε β) : ((.ok a : Except ε α) >>= f) = f a := rfl

@[simp] theorem error_bind (e : ε) (f : α → Except ε β) :
    ((.error e : Except ε α) >>= f) = .error e := rfl

theorem bind_eq_ok {x : Except ε α} : (x >>= f) = .ok b ↔ ∃ a, x = .ok a ∧ f a = .ok b := by
  cases x with
  | ok a | error e => simp

end SwApi.Library
