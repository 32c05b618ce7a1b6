import Netlab.Address.Assign
import Netlab.Config.OfYaml
import Netlab.Error
import Netlab.Program.OfTrees

namespace Netlab

def Program.ofText (s : String) : Except Error Program := do
  let tokens ← (Token.ofText s).mapError .lexical
  let trees ← (Tree.ofTokens tokens).mapError .parse
  (Program.ofTrees trees).mapError .parse

def Program.emit (p : Program) (format : Format) : Except Error String := do
  let plan ← (Plan.ofProgram p).mapError .projection
  (format.render plan).mapError .projection

namespace Config

/-- Read a source and give its hosts the addresses they lack. -/
def program (c : Config) (source : String) : Except Error Program := do
  ((← Program.ofText source).assign c.pool).mapError .exhausted

def plan (c : Config) (source : String) : Except Error Plan := do
  (Plan.ofProgram (← c.program source)).mapError .projection

def compile (c : Config) (source : String) : Except Error String := do
  (← c.program source).emit c.format

def derivedPath (c : Config) (source : Path) : Path :=
  source.withExtension c.format.extension

end Config

namespace FileSystem

def load (fs : FileSystem) (p : Path) : Except Error String :=
  (fs.read p).mapError (.unreadable p)

def save (fs : FileSystem) (p : Path) (text : String) (disk : Disk := {}) :
    Except Error Unit × FileSystem :=
  let r := fs.write p text disk
  (r.1.mapError (.unwritable p), r.2)

def saveResult (fs : FileSystem) (p : Path) (result : Except Error String) (disk : Disk := {}) :
    Except Error Unit × FileSystem :=
  match result with
  | .error e => (.error e, fs)
  | .ok text => fs.save p text disk

end FileSystem

/-- Where the text that a file is compiled to goes. -/
inductive Output where
  | stdout
  | derived
  | path (p : Path)
deriving DecidableEq

namespace Config

def load (fs : FileSystem) (p : Path) : Except Error Config := do
  (ofYaml (← fs.load p)).mapError .config

def target? (c : Config) (source : Path) : Output → Option Path
  | .stdout => none
  | .derived => some (c.derivedPath source)
  | .path p => some p

def compileTo (c : Config) (fs : FileSystem) (source : String) (p : Path)
    (disk : FileSystem.Disk := {}) : Except Error Unit × FileSystem :=
  fs.saveResult p (c.compile source) disk

end Config

def Program.emitTo (p : Program) (fs : FileSystem) (format : Format) (path : Path)
    (disk : FileSystem.Disk := {}) : Except Error Unit × FileSystem :=
  fs.saveResult path (p.emit format) disk

end Netlab
