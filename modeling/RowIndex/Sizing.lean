import RowIndex.Failure

/-! # How a file is sized

Lengths are 64-bit words. One that does not fit in its word is a broken precondition.

* **`Sizing`** — the length of a new file, and the headroom added whenever it grows.
* **`Sizing.rounded`** — whole pages: at least two at first, at least one for growth. -/

namespace RowIndex

/-- **The lengths by which a file is created and grown.** -/
structure Sizing where
  /-- The length of a new file. -/
  initialSize : UInt64
  /-- The headroom added past the needed end when the file grows. -/
  growthIncrement : UInt64
  deriving DecidableEq

namespace Sizing

/-- Ten megabytes at first, and ten more at each growth. -/
def default : Sizing :=
  ⟨10 * 1024 * 1024, 10 * 1024 * 1024⟩

instance : Inhabited Sizing := ⟨default⟩

/-- **The least multiple of the page length that is not below `n`**, if it fits in its word. -/
def wholePages (n : UInt64) : Except Fault UInt64 :=
  let length := (n.toNat + (Layout.pageSize - 1)) / Layout.pageSize * Layout.pageSize
  if length < UInt64.size then .ok (UInt64.ofNat length) else .error .lengthOverflow

/-- **Both lengths rounded up to whole pages.** The metadata page and a first node always fit, and
every growth makes room. -/
def rounded (initialSize growthIncrement : UInt64) : Except Fault Sizing := do
  let initial ← wholePages initialSize
  let growth ← wholePages growthIncrement
  return ⟨max initial (2 * UInt64.ofNat Layout.pageSize), max growth (UInt64.ofNat Layout.pageSize)⟩

end Sizing

end RowIndex
