import SwApi.Parameter.RoundTrip

/-! A save that is cut off. What is left of the file is loaded before its last line shows that it is
not whole. -/
namespace SwApi.Parameter
open Library List Option

section
variable {r : Reading}

/-- The parameters whose lines begin before the cut. -/
def begun : List (CString × CString) → Nat → List (CString × CString)
  | [], _ => []
  | e :: es, c => if c = 0 then [] else e :: begun es (c - ((lineText e).length + 1))

end

abbrev ParamMap.file (m : ParamMap) : Bytes := fileText (m.entries.map lineText)

/-- The parameters of the set with lines that begin within the first `c` bytes of its file. -/
def ParamMap.begun (m : ParamMap) (c : Nat) : List (CString × CString) :=
  Parameter.begun m.entries (c - versionLine.length)

section
variable {m : ParamMap}

theorem Holds.length_le (h : Holds d tOld m) : m.entries.length ≤ maxParaNum := by
  rw [h.length]
  exact h.wellFormed.bound

section
variable {alloc : Alloc} {d : Depot} {new : ParamMap} (halloc : ∀ k, alloc k = true)
  (hfile : d.type = .file) (hn : ∀ e ∈ new.entries, NameOk e.1)
    (hnew : new.entries.length ≤ maxParaNum)
include halloc hfile hn hnew

end

end

end SwApi.Parameter
