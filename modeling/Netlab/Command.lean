import Netlab.Command.Invocation
import Netlab.World

namespace Netlab

/-- How texts in languages that are not the program's own are read: the arguments of a command, the
settings of a file and a filter of the log. -/
structure Readers where
  request : List String → Request
  draft : String → Except ConfigFault Draft
  filter : String → Except String Filter

def Readers.standard : Readers where
  request := Request.ofArguments
  draft := Config.draft
  filter := Filter.ofText

namespace Invocation

def configure (i : Invocation) (rd : Readers) (env : String → Option String) (text? : Option String) :
    Except Error Config := do
  let file ← (text?.elim (.ok {}) rd.draft).mapError .config
  let c ← (file.config.overlay (fun f => env f.envName)).2.mapError .config
  return { c with format := i.format?.getD c.format, logLevel := i.logLevel?.getD c.logLevel }

def filter (rd : Readers) (env : String → Option String) (c : Config) : Except Error Filter :=
  (Filter.choose rd.filter (env "RUST_LOG") c.logLevel).mapError .config

/-- Where the output goes. A source is never overwritten unless that is asked for. -/
def output (i : Invocation) (c : Config) : Except Error Output :=
  if i.dryRun || i.stdout then .ok .stdout
  else
    match i.output? with
    | some p => .ok (.path p)
    | none =>
      let derived := c.derivedPath i.source
      if derived.same i.source then .error (.config (.overwritesSource derived.text))
      else .ok .derived

def opening (i : Invocation) : List Record :=
  Journal.starting ::
    (if i.source.extension? = some "midori" then [] else [Journal.oddSource i.source])

variable {m : Type → Type} [Monad m]

def prepare [MonadExcept Error m] (i : Invocation) (rd : Readers) (env : String → Option String)
    (load : Path → m String) : m (Config × Filter) := do
  let text? ← i.config?.mapM load
  let c ← MonadExcept.ofExcept (i.configure rd env text?)
  return (c, ← MonadExcept.ofExcept (filter rd env c))

def finish (i : Invocation) (w : World m) (f : Filter) (text? : Option String) : m Unit :=
  if i.dryRun then w.note (f.lines [Journal.dryRun i.source]) else w.print (text?.getD "")

def perform (i : Invocation) (rd : Readers) (env : String → Option String) (w : World m) :
    ExceptT Error m Unit := do
  let (c, f) ← i.prepare rd env w.load
  w.note (f.lines i.opening)
  let output ← MonadExcept.ofExcept (i.output c)
  let text? ← w.compileFile f c i.source output
  (i.finish w f text? : m Unit)

end Invocation

structure Report where
  code : UInt32
  stdout : String
  error? : Option Error
  log : List String

def Report.ofScene (s : Scene) : Except Error UInt32 → Report
  | .ok code => ⟨code, s.stdout, none, s.log⟩
  | .error e => ⟨1, s.stdout, some e, s.log⟩

namespace Command

def version : String := "midori_core 0.1.0\n"

def help : String :=
  "Network topology compiler\n\n" ++
  "Usage: midori [OPTIONS] <SOURCE_FILE>\n\n" ++
  "Arguments:\n" ++
  "  <SOURCE_FILE>  Path to the topology source file (.midori)\n\n" ++
  "Options:\n" ++
  "  -o, --output <PATH>          Output path (default: the source path with the format's extension)\n" ++
  "      --stdout                 Print the generated program to stdout instead of writing a file\n" ++
  "      --dry-run                Compile and report errors, but don't write any output\n" ++
  "  -f, --format <FORMAT>        Output format [possible values: python, json]\n" ++
  "  -c, --config <PATH>          YAML configuration file\n" ++
  "      --log-level <LOG_LEVEL>  Log level when RUST_LOG is unset (error, warn, info, debug, trace)\n" ++
  "  -h, --help                   Print help\n" ++
  "  -V, --version                Print version\n"

/-- Run a command line in an environment. The answer is the code that it ends with. -/
def perform {m : Type → Type} [Monad m] (rd : Readers) (args : List String)
    (env : String → Option String) (w : World m) : ExceptT Error m UInt32 := do
  match rd.request args with
  | .compile i =>
    i.perform rd env w
    return 0
  | .help =>
    w.print help
    return 0
  | .version =>
    w.print version
    return 0
  | .refused => return 2

def run (rd : Readers) (args : List String) (env : String → Option String) (fs : FileSystem)
    (disk : FileSystem.Disk := {}) : Report × FileSystem :=
  let r := (perform rd args env (Scene.world disk)).run.run { files := fs }
  (.ofScene r.2 r.1, r.2.files)

end Command

end Netlab
