import Netlab.Address.Pool
import Netlab.Format
import Netlab.Yaml.Write

namespace Netlab

inductive Field where
  | ipPool
  | format
  | logLevel
deriving DecidableEq

namespace Field

def all : List Field := [ipPool, format, logLevel]

def key : Field → String
  | ipPool => "ip_pool"
  | format => "format"
  | logLevel => "log_level"

def envName : Field → String
  | ipPool => "MIDORI_IP_POOL"
  | format => "MIDORI_FORMAT"
  | logLevel => "MIDORI_LOG_LEVEL"

def ofKey? (s : String) : Option Field :=
  all.find? (fun f => f.key = s)

end Field

/-- How a part of a document differs from what settings look like. -/
inductive Mismatch where
  | type (found expected : String)
  | value (found expected : String)
  | unknownField (key : String)
  | duplicateField (field : Field)
  | unknownFormat (text : String)
  | pool (fault : PoolFault)
deriving DecidableEq

def Mismatch.message : Mismatch → String
  | type found expected => "invalid type: " ++ found ++ ", expected " ++ expected
  | value found expected => "invalid value: " ++ found ++ ", expected " ++ expected
  | unknownField key =>
    "unknown field `" ++ key ++ "`, expected one of `ip_pool`, `format`, `log_level`"
  | duplicateField field => "duplicate field `" ++ field.key ++ "`"
  | unknownFormat text => "unknown variant `" ++ text ++ "`, expected `python` or `json`"
  | pool fault => "Invalid configuration: " ++ fault.message

inductive ConfigFault where
  | pool (fault : PoolFault)
  | unknownFormat (word : String)
  | malformed (fault : Yaml.Fault)
  | mismatch (path? : Option String) (cause : Mismatch) (mark : Yaml.Mark)
  | logFilter (level cause : String)
  | overwritesSource (path : String)
deriving DecidableEq

def ConfigFault.message : ConfigFault → String
  | pool fault => fault.message
  | unknownFormat word => "unknown output format '" ++ word ++ "'"
  | malformed fault => fault.message
  | mismatch path? cause mark =>
    (match path? with
      | some path => path ++ ": "
      | none => "") ++ cause.message ++ mark.mention
  | logFilter level cause => "invalid log level '" ++ level ++ "': " ++ cause
  | overwritesSource path =>
    "derived output path '" ++ path ++ "' would overwrite the source; pass --output"

structure Config where
  pool : Pool := .standard
  format : Format := .python
  logLevel : String := "warn"
deriving DecidableEq

namespace Config

def set (c : Config) : Field → String → Except ConfigFault Config
  | .ipPool, s => ((Pool.ofText s).mapError .pool).map (fun pool => { c with pool })
  | .format, s => ((Format.ofText s).mapError .unknownFormat).map (fun format => { c with format })
  | .logLevel, s => .ok { c with logLevel := s }

/-- Replace settings by the texts that `lookup` has for them. The answer tells which were asked for:
none after the first that is refused. -/
def overlayAll (lookup : Field → Option String) :
    List Field → Config → List Field × Except ConfigFault Config
  | [], c => ([], .ok c)
  | f :: fs, c =>
    match (lookup f).elim (.ok c) (c.set f) with
    | .error e => ([f], .error e)
    | .ok c =>
      let r := overlayAll lookup fs c
      (f :: r.1, r.2)

def overlay (c : Config) (lookup : Field → Option String) :
    List Field × Except ConfigFault Config :=
  overlayAll lookup Field.all c

def get (c : Config) : Field → String
  | .ipPool => c.pool.text
  | .format => c.format.text
  | .logLevel => c.logLevel

def yaml (c : Config) : String :=
  String.join (Field.all.map (fun f => Yaml.writeEntry f.key (c.get f)))

end Config

end Netlab
