import Netlab.Compilation
import Netlab.Log

namespace Netlab

namespace Journal

def starting : Record := ⟨.debug, .compiler, "midori starting", [("version", "\"0.1.0\"")]⟩

def oddSource (source : Path) : Record :=
  ⟨.warn, .command, "source file does not have a .midori extension", [("source", source.text)]⟩

def parsedStatement (t : Tree) : Record :=
  ⟨.trace, .compiler, "parsed statement",
    [("rule", t.rule.label), ("line", toString t.pos.line)]⟩

def builtStatement (s : Statement) : Record :=
  ⟨.debug, .compiler, "built statement",
    [("keyword", "\"" ++ s.action.keyword.text ++ "\""), ("at", s.pos.text)]⟩

def parsedProgram (p : Program) : Record :=
  ⟨.debug, .compiler, "parsed program", [("statements", toString p.statements.length)]⟩

def assignedIp (host : String) (ip : Ipv4) : List Record :=
  [⟨.trace, .compiler, "generated IP address", [("addr", ip.text)]⟩,
    ⟨.debug, .compiler, "assigned default IP", [("host", host), ("ip", ip.text)]⟩]

def assignedMac (host : String) (mac : Mac) : List Record :=
  [⟨.trace, .compiler, "generated MAC address", [("mac", mac.text)]⟩,
    ⟨.debug, .compiler, "assigned default MAC", [("host", host), ("mac", mac.text)]⟩]

def projected (p : Plan) : Record :=
  ⟨.debug, .compiler, "projected program", [("calls", toString p.calls.length)]⟩

def compiled (p : Program) (format : Format) : Record :=
  ⟨.info, .compiler, "compiled program",
    [("statements", toString p.statements.length), ("format", format.text)]⟩

def wrote (path : Path) (text : String) : Record :=
  ⟨.info, .compiler, "wrote generated program",
    [("path", path.text), ("bytes", toString text.utf8ByteSize)]⟩

def dryRun (source : Path) : Record :=
  ⟨.info, .command, "dry run succeeded, no output written", [("source", source.text)]⟩

/-- The statements that are built, up to the first fault. -/
def building : List Tree → List Record
  | [] => []
  | t :: ts =>
    match Statement.ofTree t with
    | .ok s => builtStatement s :: building ts
    | .error _ => []

def filling (g : Generators) (h : Host) : List Record :=
  match h.ip, g.ip.next.1 with
  | some _, _ => ofMac
  | none, .ok ip => assignedIp h.name ip ++ ofMac
  | none, .error _ => []
where
  ofMac : List Record :=
    match h.mac, g.mac.next.1 with
    | none, .ok mac => assignedMac h.name mac
    | _, _ => []

def assigning : Generators → List Statement → List Record
  | _, [] => []
  | g, s :: ss =>
    match s.action with
    | .host h =>
      filling g h ++
        match g.fill h with
        | .ok r => assigning r.2 ss
        | .error _ => []
    | _ => assigning g ss

def emitting (p : Program) (format : Format) : List Record :=
  match Plan.ofProgram p with
  | .error _ => []
  | .ok plan =>
    projected plan ::
      match format.render plan with
      | .error _ => []
      | .ok _ => [compiled p format]

/-- The log of a compilation, up to its first fault. -/
def compiling (c : Config) (source : String) : List Record :=
  match Token.ofText source with
  | .error _ => []
  | .ok tokens =>
    (Stream.ofTokens tokens).statements.trees.map parsedStatement ++
      match Tree.ofTokens tokens with
      | .error _ => []
      | .ok trees =>
        building trees ++
          match Program.ofTrees trees with
          | .error _ => []
          | .ok p =>
            parsedProgram p :: assigning (.ofPool c.pool) p.statements ++
              match p.assign c.pool with
              | .error _ => []
              | .ok p => emitting p c.format

end Journal

end Netlab
