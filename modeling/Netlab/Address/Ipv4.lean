import Netlab.Text.Decimal
import Netlab.Text.Split

namespace Netlab

structure Ipv4 where
  word : UInt32
deriving DecidableEq

namespace Ipv4

def ofOctets (a b c d : UInt8) : Ipv4 :=
  ⟨(a.toUInt32 <<< 24) ||| (b.toUInt32 <<< 16) ||| (c.toUInt32 <<< 8) ||| d.toUInt32⟩

def octets (a : Ipv4) : List UInt8 :=
  [(a.word >>> 24).toUInt8, (a.word >>> 16).toUInt8, (a.word >>> 8).toUInt8, a.word.toUInt8]

def text (a : Ipv4) : String :=
  String.intercalate "." (a.octets.map (fun b => toString b.toNat))

/-- A byte in decimal, without superfluous leading zeros. -/
def octet? (cs : List Char) : Option UInt8 :=
  if cs = [] ∨ (cs.head? = some '0' ∧ cs ≠ ['0']) then none
  else (Text.readDigits 255 0 cs).toOption.map UInt8.ofNat

def ofText? (s : List Char) : Option Ipv4 :=
  match Text.split '.' s with
  | [a, b, c, d] => do return ofOctets (← octet? a) (← octet? b) (← octet? c) (← octet? d)
  | _ => none

end Ipv4

end Netlab
