/-! # The layout of a page

The numbers that fix the file format: every page has the same length, and a node's header, its
keys and its payload start at fixed places in it.

* **`pageSize`**, `headerSize`, `valueSize` — lengths in bytes.
* **`maxKeys`**, `maxChildren`, `minDegree` — how full a node may get, and where it is split.
* **`keysOffset`**, `payloadOffset`, `leafEnd`, `internalEnd` — where the regions of a page start
  and end; `leafEnd_le` and `internalEnd_le` say that both kinds of node fit. -/

namespace RowIndex.Layout

/-- Bytes in a page. -/
abbrev pageSize : Nat := 4096

/-- The most keys a node may hold. -/
abbrev maxKeys : Nat := 112

/-- The most children an internal node may have. -/
abbrev maxChildren : Nat := maxKeys + 1

/-- The number of keys a node keeps when it is split. -/
abbrev minDegree : Nat := maxKeys / 2

/-- Bytes in a row identifier slot. -/
abbrev valueSize : Nat := 32

/-- Bytes in a node's header. -/
abbrev headerSize : Nat := 16

/-- Where the keys start. -/
abbrev keysOffset : Nat := headerSize

/-- Where the slots of a leaf, or the children of an internal node, start. -/
abbrev payloadOffset : Nat := keysOffset + maxKeys * 4

/-- Where the slots of a full leaf end. -/
abbrev leafEnd : Nat := payloadOffset + maxKeys * valueSize

/-- Where the children of a full internal node end. -/
abbrev internalEnd : Nat := payloadOffset + maxChildren * 4

/-- **A full leaf fits in a page.** -/
theorem leafEnd_le : leafEnd ≤ pageSize := by decide

/-- **A full internal node fits in a page.** -/
theorem internalEnd_le : internalEnd ≤ pageSize := by decide

end RowIndex.Layout
