import Netlab.Address.Generator
import Netlab.Program

namespace Netlab

structure Generators where
  ip : IpGenerator
  mac : MacGenerator
deriving DecidableEq

namespace Generators

def ofPool (pool : Pool) : Generators := ⟨.ofPool pool, .start⟩

/-- The text that stands in a field: the one written there, or else that of the next address. -/
def supply {γ α : Type} (next : γ → Except Exhausted α × γ) (text : α → String) (g : γ) :
    Option String → Except Exhausted (String × γ)
  | some written => .ok (written, g)
  | none =>
    match next g with
    | (.ok a, g) => .ok (text a, g)
    | (.error e, _) => .error e

def fill (g : Generators) (h : Host) : Except Exhausted (Host × Generators) := do
  let (ip, ips) ← supply IpGenerator.next Ipv4.text g.ip h.ip
  let (mac, macs) ← supply MacGenerator.next Mac.text g.mac h.mac
  return ({ h with ip, mac }, ⟨ips, macs⟩)

def fillAll : Generators → List Statement → Except Exhausted (List Statement)
  | _, [] => .ok []
  | g, s :: ss =>
    match s.action with
    | .host h => do
      let (h, g) ← g.fill h
      return { s with action := .host h } :: (← fillAll g ss)
    | _ => return s :: (← fillAll g ss)

end Generators

def Program.assign (p : Program) (pool : Pool) : Except Exhausted Program := do
  return ⟨← (Generators.ofPool pool).fillAll p.statements⟩

end Netlab
