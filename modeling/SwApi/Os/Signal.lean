import Mathlib.Tactic.Common

/-! The signals of `swsignal.c`: semaphores that are given up to a bound. -/
namespace SwApi.Os

/-- `sw_signal_t`: the value of the semaphore and its bound. -/
structure Signal where
  val : Nat
  maxVal : Nat
deriving DecidableEq

def swSignalCreate (defval maxval : Nat) : Signal := ⟨defval, maxval⟩

/-- `sw_signal_wait`. A wait without a timeout goes on only when the value is
positive; one with a timeout may also give up with -1. -/
def swSignalWait (s : Signal) (timeout : Int) : Option (Int × Signal) :=
  if 0 < s.val then some (0, { s with val := s.val - 1 })
  else if timeout < 0 then none
  else some (-1, s)

def swSignalGive (s : Signal) : Signal :=
  if s.val < s.maxVal then { s with val := s.val + 1 } else s

theorem swSignalGive_pos (h : s.maxVal = 1) : 0 < (swSignalGive s).val := by
  unfold swSignalGive
  split
  · exact Nat.succ_pos _
  · omega

@[simp] theorem swSignalGive_maxVal (s : Signal) : (swSignalGive s).maxVal = s.maxVal := by
  unfold swSignalGive
  split <;> rfl

theorem swSignalWait_zero (s : Signal) : ∃ result s', swSignalWait s 0 = some (result, s') := by
  unfold swSignalWait
  split <;> exact ⟨_, _, rfl⟩

end SwApi.Os
