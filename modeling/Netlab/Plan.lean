import Netlab.Program

namespace Netlab

inductive Literal where
  | str (s : String)
  | int (n : UInt64)
deriving DecidableEq

structure Container where
  name : String
  ip : String
  image : String
  mac : String
  env : List (String × Literal)
  ports : List Literal
  portBindings : List (UInt64 × UInt64)
  cmd : List Literal
deriving DecidableEq

inductive Call where
  | addController (name : String)
  | addRemoteController (name host : String) (port : UInt64)
  | addContainer (c : Container)
  | addSwitch (name : String)
  | addLink (l : Link)
  | addIntent (src dst : String)
  | start
  | ping (hosts : List String)
  | stop
deriving DecidableEq

structure Plan where
  calls : List Call
deriving DecidableEq

inductive PlanFault where
  | noIp (host : String) (line : Nat)
  | noMac (host : String) (line : Nat)
  | keywordClass (cls : String)
  | clashingClass (cls : String)
deriving DecidableEq

def PlanFault.message : PlanFault → String
  | noIp host line => unresolved host line "IP address"
  | noMac host line => unresolved host line "MAC address"
  | keywordClass cls =>
    "link class '" ++ cls ++ "' is a Python keyword and cannot be imported"
  | clashingClass cls =>
    "link class '" ++ cls ++ "' clashes with a name defined by the generated module"
where
  unresolved (host : String) (line : Nat) (field : String) : String :=
    "host '" ++ host ++ "' (line " ++ toString line ++ ") has no " ++ field ++
      "; defaults were not applied"

/-- A name in a data position is passed on as a string. -/
def Atom.literal : Atom → Literal
  | name s | str s => .str s
  | int n => .int n

def Value.literal (v : Value) : Literal := v.atom.literal

namespace Call

def op : Call → String
  | addController _ => "add_controller"
  | addRemoteController _ _ _ => "add_remote_controller"
  | addContainer _ => "add_container"
  | addSwitch _ => "add_switch"
  | addLink _ => "add_link"
  | addIntent _ _ => "add_intent"
  | start => "start"
  | ping _ => "ping"
  | stop => "stop"

def cls? : Call → Option String
  | addLink l => l.cls
  | _ => none

end Call

def Host.container (h : Host) (line : Nat) : Except PlanFault Container :=
  match h.ip, h.mac with
  | some ip, some mac =>
    .ok
      { name := h.name, ip, image := h.image, mac
        env := h.env.map (fun e => (e.1, e.2.literal))
        ports := h.ports.map Value.literal
        portBindings := h.portBindings
        cmd := h.cmd.map Value.literal }
  | none, _ => .error (.noIp h.name line)
  | some _, none => .error (.noMac h.name line)

/-- The operations of one statement: one for each switch and for each hop of an intent. -/
def Statement.calls (s : Statement) : Except PlanFault (List Call) :=
  match s.action with
  | .controller name => .ok [.addController name.atom.text]
  | .remoteController name host port => .ok [.addRemoteController name host port]
  | .host h => (h.container s.pos.line).map (fun c => [.addContainer c])
  | .switch names => .ok (names.map .addSwitch)
  | .link l => .ok [.addLink l]
  | .intent names => .ok ((hops names).map (fun hop => .addIntent hop.1 hop.2))
  | .up => .ok [.start]
  | .down => .ok [.stop]
  | .ping names => .ok [.ping names]

namespace Plan

def ofProgram (p : Program) : Except PlanFault Plan := do
  return ⟨(← p.statements.mapM Statement.calls).flatten⟩

/-- The classes of links, each at its first use. -/
def linkClasses (p : Plan) : List String :=
  (p.calls.filterMap Call.cls?).eraseDups

end Plan

end Netlab
