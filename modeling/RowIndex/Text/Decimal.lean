/-! # Decimal texts of integers

* **`ofNat`**, `ofInt` — the shortest decimal text, a leading `-` for negative numbers.
* **`int?`** — reads an optional single sign followed by at least one ASCII digit.
* **`int32?`** — the same, refusing values outside the 32-bit range. -/

namespace RowIndex.Decimal

/-- **The decimal digits of `n`**, without leading zeros. -/
def ofNat (n : Nat) : String :=
  String.ofList (Nat.toDigits 10 n)

/-- **The decimal text of `i`**: the digits, after a `-` when it is negative. -/
def ofInt : Int → String
  | .ofNat n => ofNat n
  | .negSucc n => "-" ++ ofNat (n + 1)

/-- The decimal text of a signed word. -/
def ofInt32 (v : Int32) : String :=
  ofInt v.toInt

/-- The value of an ASCII digit. -/
def digit? (c : Char) : Option Nat :=
  if '0' ≤ c ∧ c ≤ '9' then some (c.toNat - '0'.toNat) else none

/-- Reads digits after a number `value` already read. -/
def digits? (value : Nat) : List Char → Option Nat
  | [] => some value
  | c :: rest => (digit? c).bind fun d => digits? (10 * value + d) rest

@[simp] theorem digits?_nil (value : Nat) : digits? value [] = some value := rfl

@[simp] theorem digits?_cons (value : Nat) (c : Char) (rest : List Char) :
    digits? value (c :: rest) = (digit? c).bind fun d => digits? (10 * value + d) rest := rfl

/-- **An unsigned number**: at least one digit and nothing else. -/
def magnitude? : List Char → Option Nat
  | [] => none
  | c :: rest => digits? 0 (c :: rest)

/-- **A signed number**: an optional single `+` or `-`, then an unsigned number. -/
def int? : List Char → Option Int
  | '-' :: rest => (magnitude? rest).map fun n => -(n : Int)
  | '+' :: rest => (magnitude? rest).map fun n => (n : Int)
  | text => (magnitude? text).map fun n => (n : Int)

/-- **A signed number in the 32-bit range.** -/
def int32? (text : String) : Option Int32 :=
  (int? text.toList).bind fun i =>
    if Int32.minValue.toInt ≤ i ∧ i ≤ Int32.maxValue.toInt then some (Int32.ofInt i) else none

end RowIndex.Decimal
