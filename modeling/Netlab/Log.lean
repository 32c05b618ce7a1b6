import Netlab.Config
import Netlab.Text.Decimal
import Netlab.Text.Split

namespace Netlab

inductive Level where
  | error
  | warn
  | info
  | debug
  | trace
deriving DecidableEq

namespace Level

def rank : Level → Nat
  | error => 1
  | warn => 2
  | info => 3
  | debug => 4
  | trace => 5

def label : Level → String
  | error => "ERROR"
  | warn => "WARN"
  | info => "INFO"
  | debug => "DEBUG"
  | trace => "TRACE"

end Level

inductive Origin where
  | command
  | compiler
deriving DecidableEq

def Origin.name : Origin → String
  | command => "midori"
  | compiler => "midori_core"

structure Record where
  level : Level
  origin : Origin
  message : String
  fields : List (String × String)
deriving DecidableEq

def Record.line (r : Record) : String :=
  r.level.label ++ " " ++ r.message ++
    String.join (r.fields.map (fun f => " " ++ f.1 ++ "=" ++ f.2))

structure Directive where
  target : List Char
  depth : Nat
deriving DecidableEq

namespace Directive

def depth? (cs : List Char) : Option Nat :=
  match Text.readWord (String.ofList cs) with
  | .ok n => if n.toNat ≤ 5 then some n.toNat else none
  | .error _ =>
    match String.ofList (cs.map Char.toLower) with
    | "off" => some 0
    | "error" => some 1
    | "warn" => some 2
    | "info" => some 3
    | "debug" => some 4
    | "trace" => some 5
    | _ => none

def startsName (c : Char) : Bool :=
  c.isAlphanum || c = '-' || c = ':' || c = '_'

/-- Read a level, a name, or a name and a level. A name alone shows all levels. Names are plain: one
that goes on with a span in brackets is not read. -/
def ofText (cs : List Char) : Except String Directive :=
  if !cs.head?.any startsName || cs.contains '[' then .error "invalid filter directive"
  else
    match Text.cut? '=' cs with
    | none =>
      match depth? cs with
      | some depth => .ok ⟨[], depth⟩
      | none => .ok ⟨cs, 5⟩
    | some (target, []) => .ok ⟨target, 5⟩
    | some (target, level) =>
      match depth? level with
      | some depth => .ok ⟨target, depth⟩
      | none =>
        .error ("error parsing level filter: expected one of \"off\", \"error\", \"warn\", " ++
          "\"info\", \"debug\", \"trace\", or a number 0-5")

def covers (d : Directive) (r : Record) : Bool :=
  d.target.isPrefixOf r.origin.name.toList

end Directive

def Directive.prefer (best? : Option Directive) (d : Directive) : Option Directive :=
  match best? with
  | some best => if d.target.length < best.target.length then some best else some d
  | none => some d

structure Filter where
  shows : Record → Bool

namespace Filter

/-- The directive with the longest name decides. -/
def ofDirectives (ds : List Directive) : Filter where
  shows r :=
    match (ds.filter (fun d => d.covers r)).foldl Directive.prefer none with
    | some d => r.level.rank ≤ d.depth
    | none => false

def ofText (s : String) : Except String Filter := do
  let parts := (Text.split ',' s.toList).filter (fun cs => cs ≠ [])
  return ofDirectives (← parts.mapM Directive.ofText)

/-- The filter that is asked for by name, if it can be read, or else that of the settings. -/
def choose (read : String → Except String Filter) (asked? : Option String) (level : String) :
    Except ConfigFault Filter :=
  match asked?.map read with
  | some (.ok filter) => .ok filter
  | _ => (read level).mapError (.logFilter level)

def lines (f : Filter) (rs : List Record) : List String :=
  (rs.filter f.shows).map Record.line

end Filter

end Netlab
