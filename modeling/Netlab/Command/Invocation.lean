import Netlab.Format
import Netlab.Path
import Netlab.Text.Split

namespace Netlab

inductive Flag where
  | output
  | stdout
  | dryRun
  | format
  | config
  | logLevel
  | help
  | version
deriving DecidableEq

namespace Flag

def takesValue : Flag → Bool
  | output | format | config | logLevel => true
  | stdout | dryRun | help | version => false

def ofName? : String → Option Flag
  | "output" => some output
  | "stdout" => some stdout
  | "dry-run" => some dryRun
  | "format" => some format
  | "config" => some config
  | "log-level" => some logLevel
  | "help" => some help
  | "version" => some version
  | _ => none

def ofLetter? : Char → Option Flag
  | 'o' => some output
  | 'f' => some format
  | 'c' => some config
  | 'h' => some help
  | 'V' => some version
  | _ => none

end Flag

structure Invocation where
  source : Path
  output? : Option Path := none
  stdout : Bool := false
  dryRun : Bool := false
  format? : Option Format := none
  config? : Option Path := none
  logLevel? : Option String := none
deriving DecidableEq

inductive Request where
  | compile (i : Invocation)
  | help
  | version
  | refused
deriving DecidableEq

structure Arguments where
  source? : Option Path := none
  output? : Option Path := none
  stdout : Bool := false
  dryRun : Bool := false
  format? : Option Format := none
  config? : Option Path := none
  logLevel? : Option String := none

namespace Arguments

def once {α : Type} (old? new? : Option α) : Option (Option α) :=
  match old?, new? with
  | none, some a => some (some a)
  | _, _ => none

def path? (s : String) : Option Path :=
  if s = "" then none else some ⟨s⟩

def addSource (a : Arguments) (s : String) : Option Arguments :=
  (once a.source? (path? s)).map (fun source? => { a with source? })

def addValue (a : Arguments) (s : String) : Flag → Option Arguments
  | .output => (once a.output? (path? s)).map (fun output? => { a with output? })
  | .format => (once a.format? (Format.ofName? s)).map (fun format? => { a with format? })
  | .config => (once a.config? (path? s)).map (fun config? => { a with config? })
  | .logLevel => (once a.logLevel? (some s)).map (fun logLevel? => { a with logLevel? })
  | _ => none

def addSwitch (a : Arguments) : Flag → Option Arguments
  | .stdout => if a.stdout then none else some { a with stdout := true }
  | .dryRun => if a.dryRun then none else some { a with dryRun := true }
  | _ => none

/-- The request of a complete command line. A source is needed, and one place for the output. -/
def request (a : Arguments) : Request :=
  match a.source? with
  | none => .refused
  | some source =>
    if a.output?.isSome && a.stdout then .refused
    else
      .compile
        { source, output? := a.output?, stdout := a.stdout, dryRun := a.dryRun
          format? := a.format?, config? := a.config?, logLevel? := a.logLevel? }

def readSources (a : Arguments) : List String → Request
  | [] => a.request
  | s :: ss =>
    match a.addSource s with
    | some a => readSources a ss
    | none => .refused

inductive Word where
  | separator
  | flag (f : Flag) (value? : Option String)
  | plain (s : String)
  | unknown

def Word.ofText (s : String) : Word :=
  match s.toList with
  | ['-', '-'] => .separator
  | '-' :: '-' :: cs =>
    let (name, value?) :=
      match Text.cut? '=' cs with
      | some (name, value) => (name, some (String.ofList value))
      | none => (cs, none)
    match Flag.ofName? (String.ofList name) with
    | some f => .flag f value?
    | none => .unknown
  | '-' :: c :: cs =>
    match Flag.ofLetter? c with
    | none => .unknown
    | some f =>
      if f.takesValue then
        match cs with
        | [] => .flag f none
        | '=' :: value => .flag f (some (String.ofList value))
        | value => .flag f (some (String.ofList value))
      else .flag f none
  | _ => .plain s

/-- Whether an argument can be the value of the flag before it. -/
def isValue (s : String) : Bool :=
  match s.toList with
  | '-' :: _ :: _ => false
  | _ => true

/-- Read arguments from left to right. The first that is refused decides, and so does a question for
help or for the version. -/
def read (a : Arguments) : List String → Request
  | [] => a.request
  | s :: ss =>
    match Word.ofText s with
    | .unknown => .refused
    | .separator => readSources a ss
    | .plain s =>
      match a.addSource s with
      | some a => read a ss
      | none => .refused
    | .flag .help none => .help
    | .flag .version none => .version
    | .flag f (some value) =>
      match a.addValue value f with
      | some a => read a ss
      | none => .refused
    | .flag f none =>
      if f.takesValue then
        match ss with
        | [] => .refused
        | value :: ss =>
          if isValue value then
            match a.addValue value f with
            | some a => read a ss
            | none => .refused
          else .refused
      else
        match a.addSwitch f with
        | some a => read a ss
        | none => .refused

end Arguments

def Request.ofArguments (args : List String) : Request :=
  Arguments.read {} args

end Netlab
