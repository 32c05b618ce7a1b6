namespace Netlab.Text

inductive DecimalFault where
  | empty
  | invalidDigit
  | tooLarge
deriving DecidableEq

def DecimalFault.message : DecimalFault → String
  | empty => "cannot parse integer from empty string"
  | invalidDigit => "invalid digit found in string"
  | tooLarge => "number too large to fit in target type"

/-- The digits of a number of at most `limit`, read after the digits that make up `value`. The first
digit that is none, or that makes the number too large, decides the fault. -/
def readDigits (limit value : Nat) : List Char → Except DecimalFault Nat
  | [] => .ok value
  | c :: cs =>
    if c.isDigit then
      let value := value * 10 + (c.toNat - '0'.toNat)
      if limit < value then .error .tooLarge else readDigits limit value cs
    else .error .invalidDigit

def readDecimal (limit : Nat) (s : String) : Except DecimalFault Nat :=
  match s.toList with
  | [] => .error .empty
  | ['+'] => .error .invalidDigit
  | '+' :: cs => readDigits limit 0 cs
  | cs => readDigits limit 0 cs

def readWord (s : String) : Except DecimalFault UInt64 :=
  (readDecimal (Nat.pow 2 64 - 1) s).map UInt64.ofNat

end Netlab.Text
