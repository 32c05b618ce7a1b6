import Netlab.Text.Split

namespace Netlab

structure Path where
  text : String
deriving DecidableEq

inductive Component where
  | root
  | here
  | up
  | name (s : String)
deriving DecidableEq

def Component.segment : Component → String
  | root | here => "."
  | up => ".."
  | name s => s

/-- A path cut at its last name: what leads to it, the name without and behind its last dot, and
whether slashes or dots of no effect follow. -/
structure LastName where
  lead : List Char
  stem : List Char
  extension? : Option (List Char)
  trailed : Bool

namespace Path

def segments (p : Path) : List String :=
  (Text.split '/' p.text.toList).map String.ofList

def isAbsolute (p : Path) : Bool :=
  p.text.toList.head? = some '/'

/-- The steps of a path. A dot counts only where the path starts with it. -/
def components (p : Path) : List Component :=
  (if p.isAbsolute then [.root] else if p.segments.head? = some "." then [.here] else []) ++
    p.segments.filterMap (fun s =>
      if s = "" ∨ s = "." then none else if s = ".." then some .up else some (.name s))

def same (p q : Path) : Bool :=
  p.components = q.components

def parent? (p : Path) : Option (List Component) :=
  match p.components.getLast? with
  | none | some .root => none
  | some _ => some p.components.dropLast

def dropTrail : List Char → List Char
  | '/' :: cs => dropTrail cs
  | '.' :: '/' :: cs => dropTrail cs
  | cs => cs

def cutSegment (cs : List Char) : List Char × List Char :=
  match Text.cutLast? '/' cs with
  | some (before, name) => (before ++ ['/'], name)
  | none => ([], cs)

def nameOf? (lead name : List Char) (trailed : Bool) : Option LastName :=
  if name = [] ∨ name = ['.'] ∨ name = ['.', '.'] then none
  else
    match Text.cutLast? '.' name with
    | none | some ([], _) => some ⟨lead, name, none, trailed⟩
    | some (stem, extension) => some ⟨lead, stem, some extension, trailed⟩

def lastName? (p : Path) : Option LastName :=
  let cs := p.text.toList
  let trimmed := (dropTrail cs.reverse).reverse
  let r := cutSegment trimmed
  nameOf? r.1 r.2 (trimmed.length < cs.length)

def extension? (p : Path) : Option String :=
  (p.lastName?.bind (fun n => n.extension?)).map String.ofList

/-- The path with another extension. A path without a last name stays as it is, and so does a name
that without its extension would be two dots. -/
def withExtension (p : Path) (extension : String) : Path :=
  match p.lastName? with
  | none => p
  | some n =>
    if n.extension?.isSome ∧ n.stem = ['.'] ∧ !n.trailed then
      ⟨String.ofList (n.lead ++ ['.', '.'])⟩
    else ⟨String.ofList (n.lead ++ n.stem ++ '.' :: extension.toList)⟩

end Path

end Netlab
