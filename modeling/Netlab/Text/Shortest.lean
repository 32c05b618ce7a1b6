namespace Netlab.Text

structure Binary where
  m : Nat
  q : Int

structure Decimal where
  digits : Nat
  exp : Int

namespace Binary

def ofFloat (x : Float) : Binary :=
  let bits := x.toBits.toNat
  let exponent : Nat := bits / Nat.pow 2 52 % Nat.pow 2 11
  let fraction := bits % Nat.pow 2 52
  if exponent = 0 then ⟨fraction, -1074⟩ else ⟨fraction + Nat.pow 2 52, (exponent : Int) - 1075⟩

/-- Four times the value, and four times the ends of the interval of numbers that round to it, over
the denominator that is the last answer. -/
def bounds (b : Binary) : Nat × Nat × Nat × Nat :=
  let scale := Nat.pow 2 b.q.toNat
  -- Right below a power of two the numbers are half as far apart.
  let below := if b.m = Nat.pow 2 52 ∧ -1074 < b.q then 1 else 2
  (4 * b.m * scale, (4 * b.m - below) * scale, (4 * b.m + 2) * scale, 4 * Nat.pow 2 (-b.q).toNat)

def magnitude (num den : Nat) : Int :=
  let digits := fun (n : Nat) => ((toString n).length : Int)
  -- A tenth has no zero behind the point, hence `den - 1`.
  if num < den then 1 - digits ((den - 1) / num) else digits (num / den)

def onGrid? (b : Binary) (exp : Int) : Option Decimal :=
  let (value, low, high, den) := b.bounds
  let up := Nat.pow 10 (-exp).toNat
  let unit := den * Nat.pow 10 exp.toNat
  let floor := value * up / unit
  let hits := fun n =>
    if b.m % 2 = 0 then low * up ≤ n * unit ∧ n * unit ≤ high * up
    else low * up < n * unit ∧ n * unit < high * up
  let nearer := if 2 * (value * up - floor * unit) ≤ unit then floor else floor + 1
  let other := if nearer = floor then floor + 1 else floor
  if hits nearer then some ⟨nearer, exp⟩ else if hits other then some ⟨other, exp⟩ else none

/-- The decimal with the fewest digits that rounds to the value. -/
def shortest (b : Binary) : Decimal :=
  let (value, _, _, den) := b.bounds
  let k := magnitude value den
  ((List.range 17).findSome? (fun (n : Nat) => b.onGrid? (k - n - 1))).getD ⟨value / den, 0⟩

end Binary

def Decimal.positional (d : Decimal) : String :=
  let digits := (toString d.digits).toList
  let places := (-d.exp).toNat
  let whole := digits ++ List.replicate d.exp.toNat '0'
  let padded := List.replicate (places + 1 - whole.length) '0' ++ whole
  let before := padded.take (padded.length - places)
  let behind := padded.drop (padded.length - places)
  let behind := (behind.reverse.dropWhile (· = '0')).reverse
  String.ofList (before ++ '.' :: (if behind.isEmpty then ['0'] else behind))

end Netlab.Text
