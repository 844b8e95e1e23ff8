/-! Hexadecimal numbers of at most 64 bits.

A token is read as a number when it is an optional mark `0x` or `0X`, then an
optional plus sign, then at least one digit in either case, and the value fits in
64 bits. Numbers are written in lower case, without a mark and without padding. -/
namespace KeyboardInfo.Text.Hex

/-- The value of a digit, in either case. -/
def digit? (c : Char) : Option Nat :=
  if '0' ≤ c ∧ c ≤ '9' then some (c.toNat - '0'.toNat)
  else if 'a' ≤ c ∧ c ≤ 'f' then some (c.toNat - 'a'.toNat + 10)
  else if 'A' ≤ c ∧ c ≤ 'F' then some (c.toNat - 'A'.toNat + 10)
  else none

/-- The text after a leading `0x` or `0X`; only one is taken off. -/
def withoutMark : List Char → List Char
  | '0' :: 'x' :: rest => rest
  | '0' :: 'X' :: rest => rest
  | cs => cs

/-- The text after a leading plus sign; only one is taken off. -/
def withoutPlus : List Char → List Char
  | '+' :: rest => rest
  | cs => cs

/-- Reads digits on from a value, most significant first. -/
def readDigits? (value : Nat) : List Char → Option Nat
  | [] => some value
  | c :: cs =>
    match digit? c with
    | some d => readDigits? (value * 16 + d) cs
    | none => none

/-- The value of one or more digits. -/
def number? (digits : List Char) : Option Nat :=
  if digits.isEmpty then none else readDigits? 0 digits

/-- The number that a token stands for. -/
def read? (token : List Char) : Option UInt64 :=
  match number? (withoutPlus (withoutMark token)) with
  | some n => if n < UInt64.size then some (UInt64.ofNat n) else none
  | none => none

/-- The digits of a number, without leading zeros. -/
def write (n : UInt64) : String := String.ofList (Nat.toDigits 16 n.toNat)

end KeyboardInfo.Text.Hex
