import Askai.Util.Oid
import Askai.Util.Utf8

/-!
# The numbered lines that a read shows

`review_read_create` (`review.c`): what the review record takes of a git read.
-/

namespace Askai

open Library

/-- `struct review_source`. -/
structure ReviewSource where
  repo : Bytes
  commit : Bytes
  path : Bytes
  /-- The lines of the file, or 0 if unknown. -/
  total : Nat
  /-- Where the numbered lines are in the output. -/
  start : Nat
  len : Nat
  first : Nat
  last : Nat
  deriving DecidableEq

/-- `struct review_read`. -/
structure ReviewRead where
  src : ReviewSource
  mark : Nat
  markLine : Nat
  deriving DecidableEq

/-- `review_newlines`. -/
def reviewNewlines (t : Bytes) : Nat :=
  t.count lf

/-- `review_source_within`. -/
def reviewSourceWithin (src : ReviewSource) (out : Bytes) : Bool :=
  src.len ≠ 0 && src.len ≤ out.length && src.start ≤ out.length - src.len

/-- The numbered lines of the source. -/
def ReviewSource.lines (src : ReviewSource) (out : Bytes) : Bytes :=
  (out.drop src.start).take src.len

end Askai
