import Netlab.Address.Mac
import Netlab.Address.Pool

namespace Netlab

inductive Exhausted where
  | ip (pool : Pool)
  | mac
deriving DecidableEq

namespace Exhausted

def pool : Exhausted → String
  | ip _ => "IP"
  | mac => "MAC"

def message : Exhausted → String
  | ip pool => "all addresses of " ++ pool.text ++ " have been assigned"
  | mac => "address range exceeded"

end Exhausted

/-- Hands out the addresses of a pool in ascending order, from the one after the base. -/
structure IpGenerator where
  pool : Pool
  index : UInt64
deriving DecidableEq

structure MacGenerator where
  current : Mac
deriving DecidableEq

namespace IpGenerator

def ofPool (pool : Pool) : IpGenerator := ⟨pool, 0⟩

def next (g : IpGenerator) : Except Exhausted Ipv4 × IpGenerator :=
  let index := g.index + 1
  if g.pool.size ≤ index.toNat then (.error (.ip g.pool), g)
  else (.ok ⟨g.pool.base.word + index.toUInt32⟩, { g with index })

end IpGenerator

namespace MacGenerator

def start : MacGenerator := ⟨.zero⟩

def next (g : MacGenerator) : Except Exhausted Mac × MacGenerator :=
  match g.current.succ? with
  | some m => (.ok m, ⟨m⟩)
  | none => (.error .mac, g)

end MacGenerator

structure Draws (α : Type) where
  drawn : Nat
  last? : Option (Except Exhausted α)

/-- Draw `n` times with `next`, going on after failures. -/
def Draws.run {γ α : Type} (next : γ → Except Exhausted α × γ) (n : Nat) (g : γ) : Draws α × γ :=
  n.fold
    (fun _ _ (r : Draws α × γ) =>
      let (answer, g) := next r.2
      (⟨r.1.drawn + (if answer.toBool then 1 else 0), some answer⟩, g))
    (⟨0, none⟩, g)

end Netlab
