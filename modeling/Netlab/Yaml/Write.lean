import Netlab.Yaml.Input
import Netlab.Yaml.Scalar

namespace Netlab.Yaml

inductive Style where
  | plain
  | single
  | double
  | literal
deriving DecidableEq

def isPrintable (c : Char) : Bool :=
  let n := c.toNat
  n == 0x0A || (0x20 ≤ n && n ≤ 0x7E) || (0xA0 ≤ n && n ≤ 0xFFFD && n != 0xFEFF) ||
    0x10000 ≤ n

/-- What stands in the way of the simpler styles. -/
structure Traits where
  indicator : Bool
  lineBreak : Bool
  special : Bool
  edge : Bool
  trailingSpace : Bool
  breakSpace : Bool
  spaceBreak : Bool

namespace Traits

def adjacent (p q : Char → Bool) : List Char → Bool
  | a :: b :: cs => (p a && q b) || adjacent p q (b :: cs)
  | _ => false

def leads (c : Char) (next? : Option Char) : Bool :=
  c ∈ ['#', ',', '[', ']', '\x7b', '\x7d', '&', '*', '!', '|', '>', '\'', '"', '%', '@', '\x60'] ||
    ((c = '?' || c = ':' || c = '-') && next?.all isGap)

def inside : Char → List Char → Bool
  | _, [] => false
  | before, c :: cs =>
    (c = ':' && cs.head?.all isGap) || (c = '#' && isGap before) || inside c cs

def ofText (cs : List Char) : Traits where
  indicator :=
    cs.take 3 = ['-', '-', '-'] || cs.take 3 = ['.', '.', '.'] ||
      match cs with
      | [] => false
      | c :: cs => leads c cs.head? || inside c cs
  lineBreak := cs.any isBreak
  special := cs.any (fun c => !isPrintable c)
  edge := cs.head?.any (fun c => c = ' ' || isBreak c) || cs.getLast?.any (fun c => c = ' ' || isBreak c)
  trailingSpace := cs.getLast?.any (· = ' ')
  breakSpace := adjacent isBreak (· = ' ') cs
  spaceBreak := adjacent (· = ' ') isBreak cs

def allowsPlain (t : Traits) : Bool :=
  !(t.indicator || t.lineBreak || t.special || t.edge || t.breakSpace || t.spaceBreak)

def allowsSingle (t : Traits) : Bool :=
  !(t.special || t.breakSpace || t.spaceBreak)

def allowsLiteral (t : Traits) : Bool :=
  !(t.special || t.spaceBreak || t.trailingSpace)

end Traits

def readsAsText (s : String) : Bool :=
  match Scalar.ofPlain s with
  | .text _ => !Scalar.isPadded s.toList
  | _ => false

/-- The style of a text: lines are written as a block, and what would be read as something else is
quoted. -/
def Style.ofText (s : String) : Style :=
  let t := Traits.ofText s.toList
  if s.toList.contains '\n' then if t.allowsLiteral then .literal else .double
  else if readsAsText s && t.allowsPlain then .plain
  else if t.allowsSingle then .single
  else .double

def hexUpper (width n : Nat) : List Char :=
  let digits := (Nat.toDigits 16 n).map Char.toUpper
  List.replicate (width - digits.length) '0' ++ digits

def escape (c : Char) : List Char :=
  if isPrintable c && !isBreak c && c != '"' && c != '\\' then [c]
  else
    match c with
    | '\x00' => ['\\', '0']
    | '\x07' => ['\\', 'a']
    | '\x08' => ['\\', 'b']
    | '\t' => ['\\', 't']
    | '\n' => ['\\', 'n']
    | '\x0b' => ['\\', 'v']
    | '\x0c' => ['\\', 'f']
    | '\r' => ['\\', 'r']
    | '\x1b' => ['\\', 'e']
    | '"' => ['\\', '"']
    | '\\' => ['\\', '\\']
    | '\u0085' => ['\\', 'N']
    | '\u2028' => ['\\', 'L']
    | '\u2029' => ['\\', 'P']
    | c =>
      let n := c.toNat
      if n ≤ 0xFF then '\\' :: 'x' :: hexUpper 2 n
      else if n ≤ 0xFFFF then '\\' :: 'u' :: hexUpper 4 n
      else '\\' :: 'U' :: hexUpper 8 n

/-- The text between single quotes. A break is followed by the indentation of the next line. -/
def singleBody : Bool → List Char → List Char
  | false, [] => []
  | true, [] => [' ', ' ']
  | broken, c :: cs =>
    if isBreak c then c :: singleBody true cs
    else
      (if broken && c != ' ' then [' ', ' '] else []) ++
        (if c = '\'' then ['\'', '\''] else [c]) ++ singleBody (broken && c = ' ') cs

def literalBody : Bool → List Char → List Char
  | _, [] => []
  | broken, c :: cs =>
    if isBreak c then c :: literalBody true cs
    else (if broken then [' ', ' '] else []) ++ c :: literalBody false cs

/-- The signs behind the bar of a block: an indentation that a leading blank would hide, and what
becomes of the line breaks at its end. -/
def literalSigns (cs : List Char) : List Char :=
  (if cs.head?.any (fun c => c = ' ' || isBreak c) then ['2'] else []) ++
    match cs.reverse with
    | [] => ['-']
    | c :: rest =>
      if !isBreak c then ['-']
      else if rest.head?.all isBreak then ['+']
      else []

def writeEntry (key s : String) : String :=
  let cs := s.toList
  let body := match Style.ofText s with
    | .plain => cs ++ ['\n']
    | .single => '\'' :: singleBody false cs ++ ['\'', '\n']
    | .double => '"' :: cs.flatMap escape ++ ['"', '\n']
    | .literal =>
      '|' :: literalSigns cs ++ '\n' :: literalBody true cs ++
        (if cs.getLast?.any isBreak then [] else ['\n'])
  key ++ ": " ++ String.ofList body

end Netlab.Yaml
