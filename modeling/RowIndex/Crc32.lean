/-! # The cyclic redundancy check CRC-32

The reflected 32-bit check with polynomial `0xEDB88320`, all-ones start and inverted result.

* **`Crc32.shift`** advances the register by one bit, `Crc32.absorb` by one byte.
* **`crc32`** is the check of a byte string; over a concatenation the register is handed on
  (`register_append`). -/

namespace RowIndex

namespace Crc32

/-- The feedback taps, bit-reversed. -/
def polynomial : UInt32 := 0xEDB88320

/-- **Advances the register by one bit**: a bit that falls out feeds the taps back. -/
def shift (register : UInt32) : UInt32 :=
  if register &&& 1 = 1 then (register >>> 1) ^^^ polynomial else register >>> 1

/-- **Advances the register by one byte.** -/
def absorb (register : UInt32) (byte : UInt8) : UInt32 :=
  Nat.repeat shift 8 (register ^^^ byte.toUInt32)

/-- The register after all of `bytes`. -/
def register (start : UInt32) (bytes : List UInt8) : UInt32 :=
  bytes.foldl absorb start

@[simp] theorem register_nil (start : UInt32) : register start [] = start := rfl

@[simp] theorem register_cons (start : UInt32) (b : UInt8) (bytes : List UInt8) :
    register start (b :: bytes) = register (absorb start b) bytes := rfl

theorem register_append (start : UInt32) (a b : List UInt8) :
    register start (a ++ b) = register (register start a) b :=
  List.foldl_append

end Crc32

/-- **The CRC-32 of a byte string.** -/
def crc32 (b : ByteArray) : UInt32 :=
  Crc32.register 0xFFFFFFFF b.data.toList ^^^ 0xFFFFFFFF

end RowIndex
