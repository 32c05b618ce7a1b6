import Netlab.Address.Generator
import Netlab.Config
import Netlab.FileSystem
import Netlab.Text.Visible
import Netlab.Token.Cursor
import Netlab.Tree.Stream

namespace Netlab

/-- Everything that can go wrong on the way from a source to its output. -/
inductive Error where
  | lexical (e : LexError)
  | parse (e : ParseError)
  | exhausted (e : Exhausted)
  | projection (e : PlanFault)
  | config (e : ConfigFault)
  | unreadable (path : Path) (e : IoFault)
  | unwritable (path : Path) (e : IoFault)
deriving DecidableEq

def IoFault.label : IoFault → String
  | notFound => "NotFound"
  | isADirectory => "IsADirectory"
  | notADirectory => "NotADirectory"
  | invalidData => "InvalidData"
  | resourceBusy => "ResourceBusy"
  | other _ _ => "Other"

/-- The system's number of a fault, if it has one, and its text. -/
def IoFault.cause : IoFault → Option Nat × String
  | notFound => (some 2, "No such file or directory")
  | isADirectory => (some 21, "Is a directory")
  | notADirectory => (some 20, "Not a directory")
  | invalidData => (none, "stream did not contain valid UTF-8")
  | resourceBusy => (some 16, "Device or resource busy")
  | other code text => (some code, text)

def IoFault.message (e : IoFault) : String :=
  match e.cause.1 with
  | some n => e.cause.2 ++ " (os error " ++ toString n ++ ")"
  | none => e.cause.2

namespace Error

def label : Error → String
  | lexical _ => "LexerError"
  | parse _ => "ParseError"
  | exhausted _ => "AddressPoolExhausted"
  | projection _ => "Projection"
  | config _ => "ConfigError"
  | unreadable _ _ => "FileReadError"
  | unwritable _ _ => "OutputWriteError"

def isSyntax : Error → Bool
  | lexical _ | parse _ => true
  | _ => false

def position? : Error → Option Position
  | lexical e => some e.pos
  | parse e => some e.pos
  | _ => none

def atPlace (p : Position) : String :=
  " at line " ++ toString p.line ++ ", column " ++ toString p.column ++ ": "

def message : Error → String
  | lexical e => "Lexer error" ++ atPlace e.pos ++ e.cause.message
  | parse e => "Parse error" ++ atPlace e.pos ++ e.cause.message
  | exhausted e => e.pool ++ " address pool exhausted: " ++ e.message
  | projection e => "Projection error: " ++ e.message
  | config e => "Invalid configuration: " ++ e.message
  | unreadable path e => "Failed to read file '" ++ path.text ++ "': " ++ e.message
  | unwritable path e => "Failed to write output file '" ++ path.text ++ "': " ++ e.message

def fields : Error → List (String × String)
  | lexical e => located e.pos e.cause.message
  | parse e => located e.pos e.cause.message
  | exhausted e => [("pool", Text.visible e.pool), ("message", Text.visible e.message)]
  | projection e => [("message", Text.visible e.message)]
  | config e => [("message", Text.visible e.message)]
  | unreadable path e => [("path", Text.visible path.text), ("source", source e)]
  | unwritable path e => [("path", Text.visible path.text), ("source", source e)]
where
  located (p : Position) (m : String) : List (String × String) :=
    [("line", toString p.line), ("column", toString p.column), ("message", Text.visible m)]
  source (e : IoFault) : String :=
    (match e.cause.1 with
      | some n => "Os \x7b code: " ++ toString n ++ ", kind: "
      | none => "Error \x7b kind: ") ++
    e.label ++ ", message: " ++ Text.visible e.cause.2 ++ " \x7d"

def detailed (e : Error) : String :=
  e.label ++ " \x7b " ++
    ", ".intercalate (e.fields.map (fun f => f.1 ++ ": " ++ f.2)) ++ " \x7d"

end Error

end Netlab
