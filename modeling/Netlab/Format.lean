import Netlab.Plan.Json
import Netlab.Python

namespace Netlab

inductive Format where
  | python
  | json
deriving DecidableEq

namespace Format

def text : Format → String
  | python => "python"
  | json => "json"

def extension : Format → String
  | python => "py"
  | json => "json"

def ofName? : String → Option Format
  | "python" => some python
  | "json" => some json
  | _ => none

/-- Read a format in upper or lower case; the answer to any other text is the text in lower case. -/
def ofText (s : String) : Except String Format :=
  let word := String.ofList (s.toList.map Char.toLower)
  if word = "python" ∨ word = "py" then .ok python
  else if word = "json" then .ok json
  else .error word

def render : Format → Plan → Except PlanFault String
  | python, p => Python.render p
  | json, p => .ok p.jsonText

end Format

end Netlab
