/-! # Hexadecimal texts

Lower-case digits throughout.

* **`ofNat`** — the shortest text of a number, `padded` the same at a least width.
* **`ofBytes`** — two digits for each byte; `toBytes?` reads them back, in either case. -/

namespace RowIndex.Hexadecimal

/-- The lower-case digit of a number below sixteen. -/
def digit (n : Nat) : Char :=
  if n < 10 then Char.ofNat ('0'.toNat + n) else Char.ofNat ('a'.toNat + (n - 10))

/-- The shortest hexadecimal text of `n`. -/
def ofNat (n : Nat) : String :=
  String.ofList (Nat.toDigits 16 n)

/-- The hexadecimal text of `n`, with zeros in front up to `width` digits. -/
def padded (width n : Nat) : String :=
  let digits := Nat.toDigits 16 n
  String.ofList (List.replicate (width - digits.length) '0' ++ digits)

/-- **Two digits for each byte.** -/
def ofBytes (b : ByteArray) : String :=
  String.ofList (b.data.toList.flatMap fun v => [digit (v.toNat / 16), digit (v.toNat % 16)])

/-- The value of a hexadecimal digit, of either case. -/
def digit? (c : Char) : Option Nat :=
  if '0' ≤ c ∧ c ≤ '9' then some (c.toNat - '0'.toNat)
  else if 'a' ≤ c ∧ c ≤ 'f' then some (c.toNat - 'a'.toNat + 10)
  else if 'A' ≤ c ∧ c ≤ 'F' then some (c.toNat - 'A'.toNat + 10)
  else none

/-- Reads pairs of digits after the bytes already read. -/
def pairs? (read : ByteArray) : List Char → Option ByteArray
  | [] => some read
  | [_] => none
  | high :: low :: rest =>
    match digit? high, digit? low with
    | some h, some l => pairs? (read.push (UInt8.ofNat (16 * h + l))) rest
    | _, _ => none

/-- **The bytes that a text of digit pairs spells.** -/
def toBytes? (text : String) : Option ByteArray :=
  pairs? ByteArray.empty text.toList

end RowIndex.Hexadecimal
