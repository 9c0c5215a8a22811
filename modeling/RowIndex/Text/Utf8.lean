import RowIndex.Bytes

/-! # Reading bytes as text

* **`lossyFrom b i`** — the characters from byte `i` on; each maximal invalid part counts as one
  replacement character.
* **`invalidLength b i`** — how long the invalid part at `i` is: the longest beginning of a
  well-formed sequence found there, and at least one byte.
* **`decodeLossy b`** — the whole byte string as text; `decodeLossy_toUTF8` says that text survives. -/

namespace RowIndex.Utf8

open Bytes

/-- The character that stands for bytes which are not text. -/
def replacement : Char := '\uFFFD'

/-- A byte that continues a sequence. -/
def isContinuation (v : UInt8) : Bool :=
  0x80 ≤ v && v ≤ 0xBF

/-- **Whether `second` may follow the lead byte `lead`** of a sequence of three or four bytes.
The tighter bounds shut out overlong forms, surrogates and values past U+10FFFF. -/
def mayFollow (lead second : UInt8) : Bool :=
  if lead = 0xE0 then 0xA0 ≤ second && second ≤ 0xBF
  else if lead = 0xED then 0x80 ≤ second && second ≤ 0x9F
  else if 0xE1 ≤ lead && lead ≤ 0xEF then isContinuation second
  else if lead = 0xF0 then 0x90 ≤ second && second ≤ 0xBF
  else if 0xF1 ≤ lead && lead ≤ 0xF3 then isContinuation second
  else if lead = 0xF4 then 0x80 ≤ second && second ≤ 0x8F
  else false

/-- **The length of the invalid part at `i`**, for a place where no character can be read: the
lead byte alone, or with the one or two bytes that could still belong to its sequence. -/
def invalidLength (b : ByteArray) (i : Nat) : Nat :=
  let lead := byteAt b i
  if mayFollow lead (byteAt b (i + 1)) then
    if 0xF0 ≤ lead && isContinuation (byteAt b (i + 2)) then 3 else 2
  else 1

theorem invalidLength_pos (b : ByteArray) (i : Nat) : 0 < invalidLength b i := by
  simp only [invalidLength]
  split
  · split <;> omega
  · omega

/-- **The characters from byte `i` on**, with one replacement for each maximal invalid part. -/
def lossyFrom (b : ByteArray) (i : Nat) : List Char :=
  if _h : i < b.size then
    match b.utf8DecodeChar? i with
    | some c => c :: lossyFrom b (i + c.utf8Size)
    | none => replacement :: lossyFrom b (i + invalidLength b i)
  else []
termination_by b.size - i
decreasing_by
  · have := c.utf8Size_pos
    omega
  · have := invalidLength_pos b i
    omega

/-- **A byte string as text.** -/
def decodeLossy (b : ByteArray) : String :=
  String.ofList (lossyFrom b 0)

/-! ## (1) Text survives -/

/-- One character takes as many bytes as its size says. -/
theorem size_utf8Encode_singleton (c : Char) : [c].utf8Encode.size = c.utf8Size := by
  rw [List.utf8Encode_singleton, List.size_toByteArray, String.length_utf8EncodeChar]

/-- Reading where a byte string was appended is reading that string from its start. -/
theorem utf8DecodeChar?_append (a b : ByteArray) :
    (a ++ b).utf8DecodeChar? a.size = b.utf8DecodeChar? 0 := by
  rw [ByteArray.utf8DecodeChar?_eq_utf8DecodeChar?_extract,
    ByteArray.extract_append_eq_right rfl (by rw [ByteArray.size_append])]

/-- **Encoded characters are read back**, whatever stands before them. -/
theorem lossyFrom_append (a : ByteArray) (cs : List Char) :
    lossyFrom (a ++ cs.utf8Encode) a.size = cs := by
  induction cs generalizing a with
  | nil =>
    rw [lossyFrom]
    simp
  | cons c cs ih =>
    have hsize : (a ++ [c].utf8Encode).size = a.size + c.utf8Size := by
      rw [ByteArray.size_append, size_utf8Encode_singleton]
    have hsplit : a ++ (c :: cs).utf8Encode = a ++ [c].utf8Encode ++ cs.utf8Encode := by
      rw [List.utf8Encode_cons, ByteArray.append_assoc]
    have hlt : a.size < (a ++ (c :: cs).utf8Encode).size := by
      have := c.utf8Size_pos
      rw [hsplit, ByteArray.size_append, hsize]
      omega
    rw [lossyFrom, dif_pos hlt, utf8DecodeChar?_append, List.utf8DecodeChar?_utf8Encode_cons]
    simp only
    rw [← hsize, hsplit, ih]

/-- **Text survives**: the bytes of a text read as that text. -/
theorem decodeLossy_toUTF8 (s : String) : decodeLossy s.toUTF8 = s := by
  have h := lossyFrom_append ByteArray.empty s.toList
  rw [ByteArray.empty_append, ByteArray.size_empty] at h
  have hs : s.toUTF8 = s.toList.utf8Encode := by simp
  rw [decodeLossy, hs, h, String.ofList_toList]

end RowIndex.Utf8
