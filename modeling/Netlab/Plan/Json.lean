import Netlab.Json
import Netlab.Plan

namespace Netlab

def Literal.json : Literal → Json
  | str s => .str s
  | int n => .int n

/-- The fields of a call besides its operation. -/
def Call.members : Call → List (String × Json)
  | addController name | addSwitch name => [("name", .str name)]
  | addRemoteController name host port =>
    [("name", .str name), ("host", .str host), ("port", .int port)]
  | addContainer c =>
    [("name", .str c.name), ("ip", .str c.ip), ("image", .str c.image), ("mac", .str c.mac),
     ("env", .obj (c.env.map (fun e => (e.1, e.2.json)))),
     ("ports", .arr (c.ports.map Literal.json)),
     ("port_bindings", .obj (c.portBindings.map (fun e => (toString e.1.toNat, .int e.2)))),
     ("cmd", .arr (c.cmd.map Literal.json))]
  | addLink l =>
    [("name", .str l.name), ("src", .str l.src), ("dst", .str l.dst)] ++
    (l.port1.map (fun n => ("port1", Json.int n))).toList ++
    (l.port2.map (fun n => ("port2", Json.int n))).toList ++
    (l.cls.map (fun s => ("cls", Json.str s))).toList ++
    (l.delay.map (fun s => ("delay", Json.str s))).toList ++
    (l.bw.map (fun n => ("bw", Json.int n))).toList
  | addIntent src dst => [("src", .str src), ("dst", .str dst)]
  | ping hosts => [("hosts", .arr (hosts.map .str))]
  | start | stop => []

def Call.json (c : Call) : Json :=
  .obj (("op", .str c.op) :: c.members)

def Plan.json (p : Plan) : Json :=
  .obj [("calls", .arr (p.calls.map Call.json))]

def Plan.jsonText (p : Plan) : String :=
  p.json.pretty 0 ++ "\n"

end Netlab
