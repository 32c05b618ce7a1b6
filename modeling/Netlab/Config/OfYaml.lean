import Netlab.Config
import Netlab.Text.Visible
import Netlab.Yaml.Event

namespace Netlab

namespace Yaml

def Scalar.describe : Scalar → String
  | null => "unit value"
  | bool b => "boolean `" ++ (if b then "true" else "false") ++ "`"
  | int n wide =>
    "integer `" ++ toString n ++ "`" ++
      (if wide then if n < 0 then " as i128" else " as u128" else "")
  | float digits => "floating point `" ++ digits ++ "`"
  | text s => "string " ++ Text.visible s

def Event.mismatch (expected : String) : Event → Mismatch
  | scalar s plain tag? =>
    match Scalar.ofTagged s plain tag? with
    | .ok v => .type v.describe expected
    | .error need => .value (Scalar.text s).describe need
  | sequenceStart _ | sequenceEnd => .type "sequence" expected
  | mappingStart _ | mappingEnd => .type "map" expected
  | aliasTo _ | void => .type "unit value" expected

end Yaml

structure Draft where
  pool? : Option Pool := none
  format? : Option Format := none
  logLevel? : Option String := none
deriving DecidableEq

namespace Draft

def has (d : Draft) : Field → Bool
  | .ipPool => d.pool?.isSome
  | .format => d.format?.isSome
  | .logLevel => d.logLevel?.isSome

def config (d : Draft) : Config where
  pool := d.pool?.getD .standard
  format := d.format?.getD .python
  logLevel := d.logLevel?.getD "warn"

end Draft

namespace Config

open Yaml (Document Event Mark)

def readText (path : String) : Event × Mark → Except ConfigFault String
  | (.scalar s _ _, _) => .ok s
  | (e, mark) => .error (.mismatch path (e.mismatch "a string") mark)

/-- A format is a word, or a tag before nothing. A tag that is no format is reported at `opened`. -/
def readFormat (path : String) (opened : Option String × Mark) :
    Event × Mark → Except ConfigFault Format
  | (e, mark) =>
    let tagged := fun (word : String) =>
      match Format.ofName? word, e with
      | none, _ => .error (.mismatch opened.1 (.unknownFormat word) opened.2)
      | some f, .scalar s plain _ =>
        if plain && (s = "" || Yaml.Scalar.isNullWord s) then .ok f
        else .error (.mismatch path (.value (Yaml.Scalar.text s).describe "null") mark)
      | some _, e => .error (.mismatch path (e.mismatch "unit") mark)
    match e with
    | .scalar s _ tag? =>
      match tag?.bind Yaml.Tag.word?, Format.ofName? s with
      | some word, _ => tagged word
      | none, some f => .ok f
      | none, none => .error (.mismatch path (.unknownFormat s) mark)
    | .sequenceStart tag? | .mappingStart tag? =>
      match tag?.bind Yaml.Tag.word? with
      | some word => tagged word
      | none => .error (.mismatch path (e.mismatch "a YAML tag starting with '!'") mark)
    | _ => .error (.malformed .endOfStream)

/-- Where a tag that is no format is reported: at the alias that leads to it, or else for the mapping
as a whole. -/
def tagPlace (opened : Mark) (path : String) : Event × Mark → Option String × Mark
  | (.aliasTo _, mark) => (some path, mark)
  | _ => (none, opened)

def readField (doc : Document) (opened : Mark) (path : String) (d : Draft) (value : Event × Mark) :
    Field → Except ConfigFault Draft
  | .ipPool => do
    match Pool.ofText (← readText path (doc.follow value)) with
    | .ok pool => return { d with pool? := some pool }
    | .error fault => throw (.mismatch none (.pool fault) opened)
  | .format => do
    let format ← readFormat path (tagPlace opened path value) (doc.follow value)
    return { d with format? := some format }
  | .logLevel => return { d with logLevel? := some (← readText path (doc.follow value)) }

def readKey : Event × Mark → Except ConfigFault Field
  | (.scalar s _ _, mark) =>
    match Field.ofKey? s with
    | some f => .ok f
    | none => .error (.mismatch none (.unknownField s) mark)
  | (e, mark) => .error (.mismatch none (e.mismatch "field identifier") mark)

/-- The name of a value in messages. An alias has none of its own. -/
def pathOf : Event → String
  | .scalar s _ _ => s
  | _ => "?"

def readEntries (doc : Document) (opened : Mark) :
    Draft → List (Event × Mark) → Except ConfigFault Draft
  | d, (.mappingEnd, _) :: _ => .ok d
  | _, [] => .error (.malformed (doc.fault?.getD .endOfStream))
  -- A key that stands here twice is reported before the fault that cut off its value.
  | d, [key] => do
    let f ← readKey (doc.follow key)
    if d.has f then throw (.mismatch none (.duplicateField f) opened)
    else throw (.malformed (doc.fault?.getD .endOfStream))
  | d, key :: value :: rest => do
    let f ← readKey (doc.follow key)
    if d.has f then throw (.mismatch none (.duplicateField f) opened)
    else readEntries doc opened (← readField doc opened (pathOf key.1) d value f) rest

def readDocument (doc : Document) : Except ConfigFault Draft :=
  match doc.events with
  | [] => .error (.malformed (doc.fault?.getD .endOfStream))
  | (.void, _) :: _ | (.scalar "" true _, _) :: _ => .ok {}
  | (.mappingStart _, opened) :: entries => readEntries doc opened {} entries
  | (e, mark) :: _ => .error (.mismatch none (e.mismatch "struct CompilerConfig") mark)

def draft (s : String) : Except ConfigFault Draft := do
  let doc := Document.ofText s
  let d ← readDocument doc
  match doc.fault? with
  | some fault => throw (.malformed fault)
  | none => if doc.more then throw (.malformed .manyDocuments) else return d

def ofYaml (s : String) : Except ConfigFault Config :=
  (draft s).map Draft.config

end Config

end Netlab
