import Netlab.Text.Shortest
import Netlab.Yaml.Tag

namespace Netlab.Yaml

/-- What a plain scalar stands for. An integer is wide if it takes more than 64 bits. -/
inductive Scalar where
  | null
  | bool (b : Bool)
  | int (n : Int) (wide : Bool)
  | float (text : String)
  | text (s : String)

namespace Scalar

def readBase (base : Nat) (cs : List Char) : Option Nat :=
  let digit? := fun c => (Text.hexValue? c).filter (· < base)
  if cs.isEmpty then none
  else cs.foldl (fun v c => v.bind (fun v => (digit? c).map (fun d => v * base + d))) (some 0)

/-- Whether a text of digits is no number, because a zero leads. -/
def isPadded (cs : List Char) : Bool :=
  let cs := match cs with
    | '-' :: cs => cs
    | '+' :: cs => cs
    | cs => cs
  match cs with
  | '0' :: c :: cs => (c :: cs).all Char.isDigit
  | _ => false

def readMagnitude (cs : List Char) : Option Nat :=
  match cs with
  | '0' :: 'x' :: digits => (readBase 16 digits)
  | '0' :: 'o' :: digits => (readBase 8 digits)
  | '0' :: 'b' :: digits => (readBase 2 digits)
  | cs => readBase 10 cs

def int? (cs : List Char) : Option Int :=
  if isPadded cs then none
  else
    match cs with
    | '-' :: cs => (readMagnitude cs).map (fun n => -(n : Int))
    | '+' :: cs => (readMagnitude cs).map (fun n => (n : Int))
    | cs => (readMagnitude cs).map (fun n => (n : Int))

def ofInt? (n : Int) : Option Scalar :=
  if -(Nat.pow 2 63 : Int) ≤ n ∧ n < Nat.pow 2 64 then some (.int n false)
  else if -(Nat.pow 2 127 : Int) ≤ n ∧ n < Nat.pow 2 128 then some (.int n true)
  else none

def decimal? (cs : List Char) : Option (Nat × Int) :=
  let whole := cs.takeWhile Char.isDigit
  let rest := cs.dropWhile Char.isDigit
  let (fraction, rest) :=
    match rest with
    | '.' :: rest => (rest.takeWhile Char.isDigit, rest.dropWhile Char.isDigit)
    | rest => ([], rest)
  let digits := whole ++ fraction
  let exponent? : Option Int :=
    match rest with
    | [] => some 0
    | e :: rest =>
      if e = 'e' || e = 'E' then
        match rest with
        | '-' :: ds => (readBase 10 ds).map (fun n => -(n : Int))
        | '+' :: ds => (readBase 10 ds).map (fun n => (n : Int))
        | ds => (readBase 10 ds).map (fun n => (n : Int))
      else none
  match readBase 10 digits, exponent? with
  | some n, some e => some (n, e - fraction.length)
  | _, _ => none

def floatText? (n : Nat) (exp : Int) : Option String :=
  let size := ((toString n).length : Int) + exp
  if n = 0 ∨ size < -400 then some "0.0"
  else if 400 < size then none
  else
    let x := Float.ofScientific n (decide (exp < 0)) exp.natAbs
    if x.isFinite then
      if x == 0.0 then some "0.0" else some (Text.Binary.ofFloat x).shortest.positional
    else none

def float? (cs : List Char) : Option String :=
  let s := String.ofList cs
  let unsigned := match cs with
    | '+' :: cs => cs
    | cs => cs
  let plus := String.ofList unsigned
  if plus = ".inf" ∨ plus = ".Inf" ∨ plus = ".INF" then some "inf"
  else if s = "-.inf" ∨ s = "-.Inf" ∨ s = "-.INF" then some "-inf"
  else if s = ".nan" ∨ s = ".NaN" ∨ s = ".NAN" then some "NaN"
  else
    match cs with
    | '-' :: cs => (decimal? cs).bind (fun r => (floatText? r.1 r.2).map ("-" ++ ·))
    | _ => (decimal? unsigned).bind (fun r => floatText? r.1 r.2)

def isNullWord (s : String) : Bool :=
  s = "~" || s = "null" || s = "Null" || s = "NULL"

def bool? (s : String) : Option Bool :=
  if s = "true" ∨ s = "True" ∨ s = "TRUE" then some true
  else if s = "false" ∨ s = "False" ∨ s = "FALSE" then some false
  else none

def ofPlain (s : String) : Scalar :=
  if s = "" || isNullWord s then .null
  else
    match bool? s with
    | some b => .bool b
    | none =>
      match (int? s.toList).bind ofInt? with
      | some n => n
      | none =>
        if isPadded s.toList then .text s
        else
          match float? s.toList with
          | some f => .float f
          | none => .text s

/-- What a scalar stands for. A tag of the standard set decides what it has to be, and a scalar that
is not gives the name of what was expected. -/
def ofTagged (s : String) (plain : Bool) (tag? : Option Tag) : Except String Scalar :=
  let need := fun (value? : Option Scalar) (expected : String) =>
    value?.elim (.error expected) (fun v => (.ok v : Except String Scalar))
  match tag? with
  | none => .ok (if plain then ofPlain s else .text s)
  | some tag =>
    if tag = .standard "bool" then need ((bool? s).map .bool) "a boolean"
    else if tag = .standard "int" then need ((int? s.toList).bind ofInt?) "an integer"
    else if tag = .standard "float" then need ((float? s.toList).map .float) "a float"
    else if tag = .standard "null" then need (if isNullWord s then some .null else none) "null"
    else .ok (if tag.isLocal && plain then ofPlain s else .text s)

end Scalar

end Netlab.Yaml
