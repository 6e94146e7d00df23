import Mathlib.Tactic.Common

/-! Texts of bytes. -/
namespace SwApi.Library

abbrev Bytes := List UInt8

/-- The line end and the blank line that end a header. -/
def crlfCrlf : Bytes := [13, 10, 13, 10]

/-- What `strncpy(dst, src, len)` stores: at most `len` bytes of `src`, filled up with NULs. -/
def strncpy (src : Bytes) (len : Nat) : Bytes := src.take len ++ List.replicate (len - src.length) 0

end SwApi.Library
