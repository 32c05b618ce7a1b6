import Netlab.Token

namespace Netlab

inductive Rule where
  | controller
  | remoteController
  | host
  | switch
  | link
  | intent
  | up
  | down
  | ping
  | array
  | object
  | pair
  | intMap
  | intPair
deriving DecidableEq

def Rule.label : Rule → String
  | controller => "Controller"
  | remoteController => "RemoteController"
  | host => "Host"
  | switch => "Switch"
  | link => "Link"
  | intent => "Intent"
  | up => "Up"
  | down => "Down"
  | ping => "Ping"
  | array => "Array"
  | object => "Object"
  | pair => "Pair"
  | intMap => "IntMap"
  | intPair => "IntPair"

/-- A positional part of a tree. An optional clause that was not written is `absent`. -/
inductive Child where
  | absent
  | token (t : Token)
  | node (rule : Rule) (pos : Position) (children : List Child)

/-- One production, at the place of its first token. The children are

* `controller`: a value
* `remoteController`: name, host string, port number
* `host`: name, ip?, image, mac?, ports?, port bindings?, environment?, command?
* `switch`, `ping`: one or more names
* `link`: name, source, destination, port1?, port2?, class?, delay?, bandwidth?
* `intent`: two or more names
* `up`, `down`: none
* `array`: values; `object`: pairs of string and value; `intMap`: pairs of numbers -/
structure Tree where
  rule : Rule
  pos : Position
  children : List Child

namespace Child

def ofTree (t : Tree) : Child := .node t.rule t.pos t.children

def isAbsent : Child → Bool
  | absent => true
  | _ => false

end Child

end Netlab
