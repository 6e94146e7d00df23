import SwApi.Library.Ledger

/-! Two users of a thing and a flag: whoever leaves first sets the flag, and whoever finds it set
releases the thing. -/
namespace SwApi.Library

/-- Where a user is: before the flag is read, when it was not set, when it was set, and past all of
it. -/
inductive Stage where
  | busy
  | leaving
  | freeing
  | gone
deriving DecidableEq

inductive Shared (es : List (Entry ι)) (i : ι) : Bool → Stage → Stage → Prop where
  | both {a b : Stage} : Held es i → a = .busy ∨ a = .leaving → b = .busy ∨ b = .leaving →
    Shared es i false a b
  | first {b : Stage} : Held es i → b = .busy ∨ b = .freeing → Shared es i true .gone b
  | second {a : Stage} : Held es i → a = .busy ∨ a = .freeing → Shared es i true a .gone
  | neither : .acquire i ∈ es → .release i ∈ es → Shared es i true .gone .gone

theorem Shared.symm (h : Shared es i flag a b) : Shared es i flag b a := by
  cases h with
  | both hheld ha hb => exact .both hheld hb ha
  | first hheld hb => exact .second hheld hb
  | second hheld ha => exact .first hheld ha
  | neither hacquire hrelease => exact .neither hacquire hrelease

theorem Shared.held (h : Shared es i flag a b) (ha : a ≠ .gone) : Held es i := by
  cases h with
  | both hheld _ _ | first hheld _ | second hheld _ => exact hheld
  | neither _ _ => exact absurd rfl ha

theorem Shared.read (h : Shared es i flag .busy b) :
    Shared es i flag (if flag then .freeing else .leaving) b := by
  cases h with
  | both hheld _ hb => exact .both hheld (.inr rfl) hb
  | second hheld _ => exact .second hheld (.inr rfl)

theorem Shared.set (h : Shared es i flag .leaving b) (hb : b ≠ .leaving) :
    Shared es i true .gone b := by
  cases h with
  | both hheld _ hb' => exact .first hheld (.inl (hb'.resolve_right hb))
  | second _ ha => simp at ha

theorem Shared.append (h : Shared es i flag a b) (hheld : Held es i → Held (es ++ es') i) :
    Shared (es ++ es') i flag a b := by
  cases h with
  | both h ha hb => exact .both (hheld h) ha hb
  | first h hb => exact .first (hheld h) hb
  | second h ha => exact .second (hheld h) ha
  | neither ha hr => exact .neither (List.mem_append_left _ ha) (List.mem_append_left _ hr)

theorem Shared.release (h : Shared es i flag .freeing b) :
    Shared (es ++ [.release i]) i flag .gone b := by
  cases h with
  | both _ ha _ => simp at ha
  | second hheld _ => exact .neither (List.mem_append_left _ hheld.1) (by simp)

theorem Shared.released (h : Shared es i flag .gone .gone) : .acquire i ∈ es ∧ .release i ∈ es := by
  cases h with
  | both _ ha _ => simp at ha
  | first _ hb => simp at hb
  | second _ ha => simp at ha
  | neither ha hr => exact ⟨ha, hr⟩

end SwApi.Library
