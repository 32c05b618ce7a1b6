import Netlab.Path

namespace Netlab

inductive IoFault where
  | notFound
  | isADirectory
  | notADirectory
  | invalidData
  | resourceBusy
  | other (code : Nat) (text : String)
deriving DecidableEq

abbrev Location := List String

inductive Entry where
  | file (content : ByteArray)
  | directory

/-- The files and directories below the root, which is always there, and the directory that relative
paths start from. -/
structure FileSystem where
  entries : List (Location × Entry)
  current : Location

namespace FileSystem

def lookup? (fs : FileSystem) (l : Location) : Option Entry :=
  if l = [] then some .directory else (fs.entries.find? (fun e => e.1 = l)).map (fun e => e.2)

def remove (fs : FileSystem) (l : Location) : FileSystem :=
  { fs with entries := fs.entries.filter (fun e => e.1 ≠ l) }

def insert (fs : FileSystem) (l : Location) (e : Entry) : FileSystem :=
  { fs with entries := (l, e) :: (fs.remove l).entries }

def needDirectory (fs : FileSystem) (l : Location) : Except IoFault Unit :=
  match fs.lookup? l with
  | some .directory => .ok ()
  | some (.file _) => .error .notADirectory
  | none => .error .notFound

/-- Follow segments from a location. All that a segment is looked up in must be a directory. -/
def walk (fs : FileSystem) : Location → List String → Except IoFault Location
  | l, [] => .ok l
  | l, s :: ss => do
    fs.needDirectory l
    if s = "" ∨ s = "." then fs.walk l ss
    else if s = ".." then fs.walk l.dropLast ss
    else fs.walk (l ++ [s]) ss

def startOf (fs : FileSystem) (p : Path) : Location :=
  if p.isAbsolute then [] else fs.current

def read (fs : FileSystem) (p : Path) : Except IoFault String :=
  if p.text = "" then .error .notFound
  else do
    match fs.lookup? (← fs.walk (fs.startOf p) p.segments) with
    | none => .error .notFound
    | some .directory => .error .isADirectory
    | some (.file content) =>
      match String.fromUTF8? content with
      | some text => .ok text
      | none => .error .invalidData

def directoryOf (fs : FileSystem) (p : Path) : Except IoFault Location := do
  let l ← fs.walk (fs.startOf p) ((p.parent?.getD []).map Component.segment)
  fs.needDirectory l
  return l

def freshName (fs : FileSystem) : String :=
  -- Longer than every name in use, so it is none of them.
  let longest := fs.entries.foldl (fun n e => e.1.foldl (fun n s => max n s.length) n) 0
  String.ofList (".tmp".toList ++ List.replicate longest 'x')

def lastSegment? : List String → Option (List String × String × Bool)
  | [] => none
  | s :: ss =>
    match lastSegment? ss with
    | some (before, last, slash) => some (s :: before, last, slash)
    | none => if s = "" then none else some ([], s, !ss.isEmpty)

def targetOf (fs : FileSystem) (p : Path) : Except IoFault Location :=
  match lastSegment? p.segments with
  | none => .error (if p.text = "" then .notFound else .resourceBusy)
  | some (before, last, slash) => do
    let l ← fs.walk (fs.startOf p) before
    fs.needDirectory l
    if last = "." ∨ last = ".." then .error .resourceBusy
    else if slash then .error .notADirectory
    else
      match fs.lookup? (l ++ [last]) with
      | some .directory => .error .isADirectory
      | _ => return l ++ [last]

/-- What a disk refuses beyond the rules of files and directories: to make a new file, to take the text
that is written to it, or to move it. -/
structure Disk where
  make : Option IoFault := none
  fill : Option IoFault := none
  move : Option IoFault := none

def persist (fs : FileSystem) (temporary : Location) (content : ByteArray) (p : Path)
    (refusal : Option IoFault) : Except IoFault Unit × FileSystem :=
  match refusal.elim (fs.targetOf p) .error with
  | .error e => (.error e, fs.remove temporary)
  | .ok l => (.ok (), (fs.remove temporary).insert l (.file content))

/-- Write a file: first to a new file of the same directory, which is then moved to its place, so that
no part of the text is ever seen there. A new file that cannot be filled is removed. -/
def write (fs : FileSystem) (p : Path) (text : String) (disk : Disk := {}) :
    Except IoFault Unit × FileSystem :=
  match disk.make.elim (fs.directoryOf p) .error with
  | .error e => (.error e, fs)
  | .ok l =>
    let temporary := l ++ [fs.freshName]
    match disk.fill with
    | some e => (.error e, (fs.insert temporary (.file .empty)).remove temporary)
    | none => (fs.insert temporary (.file text.toUTF8)).persist temporary text.toUTF8 p disk.move

def makeDirectories (fs : FileSystem) : Location → List String → FileSystem × Location
  | l, [] => (fs, l)
  | l, s :: ss =>
    if s = "" ∨ s = "." then fs.makeDirectories l ss
    else if s = ".." then fs.makeDirectories l.dropLast ss
    else
      let l := l ++ [s]
      if (fs.lookup? l).isSome then fs.makeDirectories l ss
      else (fs.insert l .directory).makeDirectories l ss

def put (fs : FileSystem) (p : Path) (e : Entry) : FileSystem :=
  match lastSegment? p.segments with
  | none => fs
  | some (before, last, _) =>
    let (fs, l) := fs.makeDirectories (fs.startOf p) before
    match e with
    | .directory => (fs.makeDirectories l [last]).1
    | e => fs.insert (l ++ [last]) e

def listing (fs : FileSystem) : List (List String × Entry) :=
  fs.entries.filterMap (fun e =>
    if fs.current.isPrefixOf e.1 && e.1 ≠ fs.current then
      some (e.1.drop fs.current.length, e.2)
    else none)

def fresh : FileSystem := ⟨[(["work"], .directory)], ["work"]⟩

end FileSystem

end Netlab
