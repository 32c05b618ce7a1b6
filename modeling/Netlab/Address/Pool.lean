import Netlab.Address.Ipv4
import Netlab.Text.Blank

namespace Netlab

def blockSize (bits : Nat) : Nat := Nat.pow 2 (32 - bits)

/-- A block of addresses that agree in their first `bits` bits, with room for at least two. -/
structure Pool where
  base : Ipv4
  bits : Nat
  bits_lt : bits < 32
  aligned : base.word.toNat % blockSize bits = 0
deriving DecidableEq

inductive PoolFault where
  | noHosts (bits : Nat)
  | unaligned (base : Ipv4) (bits : Nat)
  | notCidr (text : String)
  | badAddress (text : String)
  | badLength (text : String) (cause : Text.DecimalFault)
deriving DecidableEq

def PoolFault.message : PoolFault → String
  | noHosts bits => "IP pool prefix /" ++ toString bits ++ " leaves no host addresses"
  | unaligned base bits =>
    "IP pool base " ++ base.text ++ " is not aligned to a /" ++ toString bits ++ " boundary"
  | notCidr text => "IP pool '" ++ text ++ "' is not in CIDR form"
  | badAddress text => "IP pool '" ++ text ++ "': invalid IPv4 address syntax"
  | badLength text cause => "IP pool '" ++ text ++ "': " ++ cause.message

namespace Pool

def size (p : Pool) : Nat := blockSize p.bits

def text (p : Pool) : String := p.base.text ++ "/" ++ toString p.bits

def ofBase (base : Ipv4) (bits : Nat) : Except PoolFault Pool :=
  if hb : bits < 32 then
    if ha : base.word.toNat % blockSize bits = 0 then .ok ⟨base, bits, hb, ha⟩
    else .error (.unaligned base bits)
  else .error (.noHosts bits)

/-- Read an address, a slash and a length in bits, with blanks allowed around them. -/
def ofText (s : String) : Except PoolFault Pool :=
  match Text.cut? '/' (Text.trim s).toList with
  | none => .error (.notCidr s)
  | some (address, length) =>
    match Ipv4.ofText? address with
    | none => .error (.badAddress s)
    | some base =>
      match Text.readDecimal 255 (String.ofList length) with
      | .error cause => .error (.badLength s cause)
      | .ok bits => ofBase base bits

def standard : Pool := ⟨⟨0x0A000000⟩, 22, by decide, by decide⟩

end Pool

end Netlab
