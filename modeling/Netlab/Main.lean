import Netlab.Command

namespace Netlab.Console

def faultOf : IO.Error → IoFault
  | .noFileOrDirectory _ _ _ => .notFound
  | .inappropriateType _ code _ => if code = 20 then .notADirectory else .isADirectory
  | .resourceBusy code _ => if code = 16 then .resourceBusy else .other code.toNat "Resource busy"
  | .permissionDenied _ code text => .other code.toNat text
  | e => .other 5 (toString e)

abbrev Run := ExceptT Error IO

def load (p : Path) : Run String := do
  let content : Except IoFault ByteArray ←
    try pure (.ok (← IO.FS.readBinFile p.text))
    catch e : IO.Error => pure (.error (faultOf e))
  match content.map String.fromUTF8? with
  | .ok (some text) => return text
  | .ok none => throw (.unreadable p .invalidData)
  | .error e => throw (.unreadable p e)

def directory (p : Path) : String :=
  match p.parent? with
  | none | some [] => "."
  | some steps =>
    (if p.isAbsolute then "/" else "") ++ "/".intercalate (steps.map Component.segment)

/-- Write a new file of the same directory and move it to its place. -/
def replace (p : Path) (text : String) : IO Unit := do
  let temporary := directory p ++ "/.tmp" ++ toString (← IO.monoNanosNow)
  let handle ← IO.FS.Handle.mk temporary .writeNew
  try
    handle.write text.toUTF8
    handle.flush
    IO.FS.rename temporary p.text
  catch e =>
    IO.FS.removeFile temporary
    throw e

def save (p : Path) (text : String) : Run Unit := do
  let fault? : Option IoFault ←
    try
      replace p text
      pure none
    catch e : IO.Error => pure (some (faultOf e))
  if let some e := fault? then throw (.unwritable p e)

def environment : IO (String → Option String) := do
  let names := "RUST_LOG" :: Field.all.map Field.envName
  let values ← names.mapM (fun name => do return (name, ← IO.getEnv name))
  return fun name => (values.find? (fun v => v.1 = name)).bind (fun v => v.2)

def world : World IO where
  load := load
  save := save
  note lines := lines.forM IO.eprintln
  print := IO.print

end Netlab.Console

open Netlab in
def main (args : List String) : IO UInt32 := do
  match ← (Command.perform .standard args (← Console.environment) Console.world).run with
  | .ok code =>
    if code = 2 then IO.eprint Command.help
    return code
  | .error e =>
    IO.eprintln ("Error: " ++ e.detailed)
    return 1
