import Netlab.Keyword
import Netlab.Position

namespace Netlab

/-- The three forms of a value. A name in a data position is as good as a string. -/
inductive Atom where
  | name (s : String)
  | str (s : String)
  | int (n : UInt64)
deriving DecidableEq

def Atom.text : Atom → String
  | name s | str s => s
  | int n => toString n.toNat

structure Value where
  atom : Atom
  pos : Position
deriving DecidableEq

/-- A container. Where no address is given, one is assigned later. -/
structure Host where
  name : String
  ip : Option String
  image : String
  mac : Option String
  ports : List Value
  portBindings : List (UInt64 × UInt64)
  env : List (String × Value)
  cmd : List Value
deriving DecidableEq

structure Link where
  name : String
  src : String
  dst : String
  port1 : Option UInt64
  port2 : Option UInt64
  cls : Option String
  delay : Option String
  bw : Option UInt64
deriving DecidableEq

inductive Action where
  | controller (name : Value)
  | remoteController (name host : String) (port : UInt64)
  | host (h : Host)
  | switch (names : List String)
  | link (l : Link)
  | intent (names : List String)
  | up
  | down
  | ping (names : List String)
deriving DecidableEq

structure Statement where
  pos : Position
  action : Action
deriving DecidableEq

structure Program where
  statements : List Statement
deriving DecidableEq

def Action.keyword : Action → Keyword
  | controller _ => .controller
  | remoteController _ _ _ => .remoteController
  | host _ => .host
  | switch _ => .switch
  | link _ => .link
  | intent _ => .intent
  | up => .up
  | down => .down
  | ping _ => .ping

def Action.host? : Action → Option Host
  | host h => some h
  | _ => none

def Program.hosts (p : Program) : List Host :=
  p.statements.filterMap (fun s => s.action.host?)

def hops : List String → List (String × String)
  | a :: b :: names => (a, b) :: hops (b :: names)
  | _ => []

end Netlab
