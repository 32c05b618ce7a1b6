import Netlab.Plan

namespace Netlab.Python

def keywords : List String :=
  ["False", "None", "True", "and", "as", "assert", "async", "await", "break", "class",
   "continue", "def", "del", "elif", "else", "except", "finally", "for", "from", "global",
   "if", "import", "in", "is", "lambda", "nonlocal", "not", "or", "pass", "raise", "return",
   "try", "while", "with", "yield"]

def ownNames : List String := ["context", "nodes", "run_network"]

/-- How a character is written inside double quotes. Control characters without a letter of their own
are written as two hexadecimal digits. -/
def escape (c : Char) : List Char :=
  if c = '\\' then ['\\', '\\']
  else if c = '"' then ['\\', '"']
  else if c = '\n' then ['\\', 'n']
  else if c = '\r' then ['\\', 'r']
  else if c = '\t' then ['\\', 't']
  else if c.toNat < 0x20 ∨ c.toNat = 0x7F then
    ['\\', 'x', Nat.digitChar (c.toNat / 16), Nat.digitChar (c.toNat % 16)]
  else [c]

def quote (s : String) : String :=
  String.ofList ('"' :: s.toList.flatMap escape ++ ['"'])

def int (n : UInt64) : String := toString n.toNat

def literal : Literal → String
  | .str s => quote s
  | .int n => int n

def list (items : List String) : String :=
  "[" ++ String.intercalate ", " items ++ "]"

def dict (items : List (String × String)) : String :=
  "\x7b" ++ String.intercalate ", " (items.map (fun e => e.1 ++ ": " ++ e.2)) ++ "\x7d"

/-- The node of the given name. Nodes are kept in a dictionary, so that no name of theirs can clash
with one of the module. -/
def node (name : String) : String :=
  "nodes[" ++ quote name ++ "]"

def keywordArg (name : String) (value : String) : String :=
  name ++ "=" ++ value

def invoke (op : String) (args : List String) : String :=
  "context." ++ op ++ "(" ++ String.intercalate ", " args ++ ")"

def linkArgs (l : Link) : List String :=
  [keywordArg "name" (quote l.name), keywordArg "src" (node l.src),
    keywordArg "dst" (node l.dst)] ++
  (l.port1.map (fun n => keywordArg "port1" (int n))).toList ++
  (l.port2.map (fun n => keywordArg "port2" (int n))).toList ++
  (l.cls.map (fun c => keywordArg "cls" c)).toList ++
  (l.delay.map (fun d => keywordArg "delay" (quote d))).toList ++
  (l.bw.map (fun n => keywordArg "bw" (int n))).toList

def callLines (call : Call) : List String :=
  match call with
  | .addController name => [invoke call.op [keywordArg "name" (quote name)]]
  | .addRemoteController name host port =>
    [invoke call.op
      [keywordArg "name" (quote name), keywordArg "host" (quote host),
        keywordArg "port" (int port)]]
  | .addContainer c =>
    [node c.name ++ " = context." ++ call.op ++ "(",
     "        name=" ++ quote c.name ++ ", ip=" ++ quote c.ip ++ ", image=" ++ quote c.image ++
       ", mac=" ++ quote c.mac ++ ",",
     "        env=" ++ dict (c.env.map (fun e => (quote e.1, literal e.2))) ++ ",",
     "        ports=" ++ list (c.ports.map literal) ++ ",",
     "        port_bindings=" ++ dict (c.portBindings.map (fun e => (int e.1, int e.2))) ++ ",",
     "        cmd=" ++ list (c.cmd.map literal) ++ ")"]
  | .addSwitch name => [node name ++ " = " ++ invoke call.op [keywordArg "name" (quote name)]]
  | .addLink l => [invoke call.op (linkArgs l)]
  | .addIntent src dst =>
    [invoke call.op [keywordArg "src" (node src), keywordArg "dst" (node dst)]]
  | .start => [invoke call.op []]
  | .ping hosts => [invoke call.op [list (hosts.map node)]]
  | .stop => [invoke call.op []]

def importLine (cls : String) : String :=
  "from mininet.link import " ++ cls

def checkClass (cls : String) : Except PlanFault Unit :=
  if cls ∈ keywords then .error (.keywordClass cls)
  else if cls ∈ ownNames then .error (.clashingClass cls)
  else .ok ()

def header : String := "# Generated by midori. Do not edit."

def callText (call : Call) : String :=
  "    " ++ String.intercalate "\n" (callLines call) ++ "\n"

/-- A module that defines `run_network(context)`, which carries out the plan. -/
def render (p : Plan) : Except PlanFault String := do
  let classes := p.linkClasses
  classes.forM checkClass
  return header ++ "\n" ++ String.join (classes.map (fun c => importLine c ++ "\n")) ++
    "\n\ndef run_network(context):\n    nodes = \x7b\x7d\n" ++ String.join (p.calls.map callText)

end Netlab.Python
